import CilMmix.Proofs.Lowering.Statics
import CilMmix.Proofs.Machine.Constant
import CilMmix.Proofs.Program.Assembled
import CilMmix.Proofs.Storage.Image

/-! Code and data segment agree. The addresses that code loads are fixed when the code is written and the
bytes are laid out in the end, yet a string value points to its text and a static field to its zeros. -/

namespace CilMmix

/-- Directives, which put data at addresses. -/
def Opcode.isDirective : Opcode → Bool
  | loc | octa | byte => true
  | _ => false

namespace Line

def isDirective : Line → Bool
  | op _ code _ => code.isDirective
  | note _ _ | comment _ | blank | verbatim _ => false

theorem isDirective_unlabel (l : Line) : l.unlabel.isDirective = l.isDirective := by
  cases l <;> rfl

theorem Fits.isDirective {n : Nat} {l : Line} (h : l.Fits n) : l.isDirective = false := by
  obtain ⟨code, operands, rfl, hsteps, -⟩ := h
  cases code <;> first | rfl | cases hsteps

end Line

/-- Lines that are no directives do not put anything into memory. -/
theorem Image.read_of_code {lines : List Line} (h : ∀ l ∈ lines, l.isDirective = false) (im : Image) :
    im.read lines = im := by
  induction lines with
  | nil => rfl
  | cons l lines ih =>
    have hl : im.directive l = im := by
      have hdirective := h l List.mem_cons_self
      cases l with
      | op label code operands => cases code <;> first | rfl | cases hdirective
      | note | comment | blank | verbatim => rfl
    rw [read, List.foldl_cons, hl]
    exact ih fun l' hl' => h l' (List.mem_cons_of_mem _ hl')

theorem Routine.isDirective {name : String} {lines : List Line} (h : named name = .ok lines) :
    ∀ l ∈ lines, l.isDirective = false := by
  have hall : ∀ p ∈ table, ∀ l ∈ p.2, l.isDirective = false := by decide
  exact hall _ (mem_table h)

theorem Lower.instruction_isDirective {types : List TypeDef} {site : Site} {s t : LowerState}
    {code : List Line} (hs : s.layout.Sound types) {i : Instruction}
    (h : instruction site i s = .ok (code, t)) : ∀ l ∈ code, l.isDirective = false := by
  obtain ⟨n, -, hall⟩ := instruction_lines hs h
  intro l hl
  rcases hall l hl with hfits | hends
  · exact hfits.isDirective
  · cases hends <;> rfl

theorem MethodDef.Compilation.isDirective {types : List TypeDef} {m : MethodDef} {options : Options}
    {session : Session} (c : m.Compilation options session) (hs : session.layout.Sound types) :
    ∀ l ∈ c.lines, l.isDirective = false := by
  intro l hl
  rcases mem_lines hl with hl | ⟨i, v, hv, hl⟩ | rfl
  · rcases c.head_fits l hl with rfl | hfits
    · rfl
    · exact hfits.isDirective
  · obtain ⟨instruction, _, _, _, hi, -⟩ := c.visit_code hv
    obtain ⟨σ, after, code, hσ, -, hisCode, hcode, hlines, -⟩ := c.visit_sound hs hi hv
    rw [hlines] at hl
    rcases Line.mem_piece hisCode hl with ⟨text, rfl⟩ | ⟨name, rfl⟩ | ⟨l', hl', he⟩
    · rfl
    · rfl
    · rw [← Line.isDirective_unlabel, he, Line.isDirective_unlabel]
      exact Lower.instruction_isDirective hσ hcode l' hl'
  · rfl

theorem loadConstant_cons (r : Reg) (value : UInt64) : ∃ code operands rest,
    loadConstant r value = .ins code operands :: rest := by
  unfold loadConstant
  split
  · exact ⟨_, _, _, rfl⟩
  · dsimp only
    split
    · exact ⟨_, _, _, rfl⟩
    · exact ⟨_, _, _, rfl⟩

/-- A label and a remark go before the first operation, and the rest of the code is as it was. -/
theorem piece_append {annotate : Bool} {label : Option String} {i : Instruction} {opcode : Opcode}
    {operands : List Operand} {first rest : List Line}
    (hcode : Line.IsCode (.ins opcode operands :: first ++ rest)) :
    piece annotate label i (.ins opcode operands :: first ++ rest) =
      piece annotate label i (.ins opcode operands :: first) ++ rest := by
  have hfirst : ∀ l ∈ Line.ins opcode operands :: first, l.Plain :=
    fun l hl => hcode.plain l (List.mem_append_left _ hl)
  rw [piece_eq hcode.plain, piece_eq hfirst, List.append_assoc]
  cases label <;> rfl

namespace Module

open Compilation

namespace Compilation

variable {M : Module} {options : Options} {c : M.Compilation options}

/-- Memory as the directives of the assembly fill it. -/
def image (c : M.Compilation options) : Image := Image.read {} c.lines

/-- The data segment is all that matters to it. -/
theorem image_eq (c : M.Compilation options) :
    c.image = Image.read { location := options.textOrigin } c.statics.lines := by
  have hcode : ∀ l ∈ c.methods.flatMap Assembled.lines, l.isDirective = false := by
    intro l hl
    obtain ⟨a, ha, hl⟩ := List.mem_flatMap.mp hl
    have hsound := ((c.follows.grows (Layout.sound_ofModule M)).2 a ha).1
    rcases a.cases with ⟨-, hnamed, -⟩ | ⟨-, d, hlines, -⟩
    · exact Routine.isDirective hnamed l hl
    · exact d.isDirective hsound l (hlines ▸ hl)
  rw [image, lines, Image.read_append]
  show Image.read (Image.read { location := options.textOrigin } _) _ = _
  rw [Image.read_of_code hcode]

theorem holds (c : M.Compilation options) {a : Allocation} (ha : a ∈ c.statics.allocations) :
    c.image.Holds a.address.raw a.bytes := by
  rw [image_eq]
  exact c.sound.holds ha _

/-- The first register above the operands that an instruction finds. -/
def Place.top (p : c.Place) : Nat := Shape.top p.method.frame.stop (shape p.visit.arrival)

/-- The value of a string literal: the address of its text, and the number of its bytes. -/
structure Place.LoadsText (p : c.Place) (a : Allocation) (text : String) (address length : Word) :
    Prop where
  address_eq : address.toNat = a.address.raw + 2 * wordBytes
  length_eq : length.toNat = (Statics.textBytes text).length
  run_eq : ∀ machine, run p.visit.lines machine =
    ((machine.set p.top address).set (p.top + 1) length, .fall)

/-- The code about a static field loads an address, and all else that it does is access through it. -/
structure Place.LoadsAddress (p : c.Place) (kind : FieldAccess) (a : Allocation) (address : Word)
    (start rest : List Line) : Prop where
  address_eq : address.toNat = a.address.raw
  lines_eq : p.visit.lines = start ++ rest
  run_eq : ∀ machine, run start machine = (machine.set p.top address, .fall)
  rest : ∀ l ∈ rest, ∃ opcode r word, kind.accessCode? = some opcode ∧ r.index.val = p.top ∧
    l.IsAccess opcode r word

/-- Storage of a static field in the data segment. -/
structure HasField (c : M.Compilation options) (f : FieldRef) (a : Allocation) : Prop where
  entry : [.ins .loc [.hex 1 a.address.raw],
    .op (some (mangle f.text)) .octa (List.replicate (max a.size.words 1) (.imm 0))] <:+: c.lines
  zeros : c.image.Holds a.address.raw (List.replicate (max a.size.words 1 * wordBytes) 0)
  declared : Lower.Declared M.types f.text a.size

/-- Code and data segment are about the same storage. -/
structure Agrees (c : M.Compilation options) : Prop where
  placed : ∀ p : c.Place, p.visit.lines <:+: c.lines
  literal : ∀ (p : c.Place) text, p.instruction.op = .push (.str text) →
    ∃ a address length, c.statics.find? (.literal text) = some a ∧ p.LoadsText a text address length ∧
      c.image.HasText address.toNat text ∧ address.toNat + length.toNat < a.stop
  static : ∀ (p : c.Place) kind f, p.instruction.op = .staticField kind f →
    ∃ a address start rest, c.statics.find? (.field f.text) = some a ∧
      p.LoadsAddress kind a address start rest ∧ c.HasField f a
  once : ∀ a ∈ c.statics.allocations, c.statics.find? a.key = some a
  /-- An entry writes its storage. A field without words has none, and the word of zeros that its entry
  writes lies on the first word of the next allocation, which begins with zeros as well. -/
  written : ∀ a ∈ c.statics.allocations, c.image.Holds a.address.raw a.bytes ∧
    (a.bytes.length = a.size.roundedBytes ∨
      a.size.roundedBytes = 0 ∧ a.bytes = List.replicate wordBytes 0)
  apart : ∀ a ∈ c.statics.allocations, ∀ b ∈ c.statics.allocations, a.key ≠ b.key →
    a.stop ≤ b.address.raw ∨ b.stop ≤ a.address.raw

theorem toNat_ofNat {n : Nat} (h : n < UInt64.size) : (UInt64.ofNat n).toBitVec.toNat = n :=
  Nat.mod_eq_of_lt h

/-- All storage ends before the place where the next would go. -/
theorem stop_le (c : M.Compilation options) {a : Allocation} (ha : a ∈ c.statics.allocations) :
    a.address.raw ≤ a.stop ∧ a.stop ≤ c.statics.cursor.raw :=
  ⟨Nat.le_add_right .., (c.sound.adjoining.bounds.2 a ha).2⟩

theorem literal_agrees (hsmall : c.statics.cursor.raw < UInt64.size) (p : c.Place) {text : String}
    (hop : p.instruction.op = .push (.str text)) :
    ∃ a address length, c.statics.find? (.literal text) = some a ∧ p.LoadsText a text address length ∧
      c.image.HasText address.toNat text ∧ address.toNat + length.toNat < a.stop := by
  obtain ⟨σ, after, code, hσ, hisCode, hcode, hlines, hgrows⟩ := p.lowered
  simp only [Lower.instruction, hop, Lower.literalValue] at hcode
  obtain ⟨a, r, r', hfind, hr, hr', rfl⟩ := Lower.loadString_ok hcode
  have hfound := hgrows.find? hfind
  obtain ⟨hmem, hkey⟩ := Statics.mem_of_find? hfound
  obtain ⟨-, hstop⟩ := c.stop_le hmem
  have haddress : (a.address.add Statics.headerSize).raw = a.address.raw + 2 * wordBytes := rfl
  have hfits : a.address.raw + 2 * wordBytes + (Statics.textBytes text).length < a.stop := by
    have hsize := c.sound.literal a hmem text hkey
    have hbytes : (Statics.literalSize text).bytes =
        (2 + (⟨(Statics.textBytes text).length + 1⟩ : Size).words) * wordBytes := rfl
    simp only [Allocation.stop, hsize, Size.roundedBytes, Size.words, wordBytes] at hbytes ⊢
    omega
  have hvalue := toNat_ofNat (n := a.address.raw + 2 * wordBytes) (by omega)
  have hlength := toNat_ofNat (n := (Statics.textBytes text).length) (by omega)
  have hrun : ∀ machine, run p.visit.lines machine =
      ((machine.set p.top (UInt64.ofNat (a.address.raw + 2 * wordBytes)).toBitVec).set (p.top + 1)
        (UInt64.ofNat (Statics.textBytes text).length).toBitVec, .fall) := by
    intro machine
    have htop : r.index.val = p.top := hr
    rw [hlines]
    refine run_piece hisCode ?_
    rw [run_append (run_loadConstant ..), run_loadConstant, hr', htop, haddress]
  refine ⟨a, _, _, hfound, ⟨hvalue, hlength, hrun⟩, ?_, ?_⟩
  · rw [hvalue]
    exact Image.hasText_of_holds hkey (c.sound.mod_address hmem) (c.holds hmem)
  · rw [hvalue, hlength]
    exact hfits

theorem static_agrees (hsmall : c.statics.cursor.raw < UInt64.size) (p : c.Place) {kind : FieldAccess}
    {f : FieldRef} (hop : p.instruction.op = .staticField kind f) :
    ∃ a address start rest, c.statics.find? (.field f.text) = some a ∧
      p.LoadsAddress kind a address start rest ∧ c.HasField f a := by
  obtain ⟨σ, after, code, hσ, hisCode, hcode, hlines, hgrows⟩ := p.lowered
  simp only [Lower.instruction, hop] at hcode
  obtain ⟨a, r, rest, hfind, hr, rfl, haccess⟩ := Lower.static_ok hcode
  have hfound := hgrows.find? hfind
  obtain ⟨hmem, hkey⟩ := Statics.mem_of_find? hfound
  obtain ⟨hle, hstop⟩ := c.stop_le hmem
  obtain ⟨opcode, operands, first, hfirst⟩ := loadConstant_cons r (.ofNat a.address.raw)
  obtain ⟨hlabel, hdeclared⟩ := c.sound.field a hmem f.text hkey
  have hzeros := c.holds hmem
  rw [Allocation.bytes_of_field hkey] at hzeros
  have hloads : p.LoadsAddress kind a (UInt64.ofNat a.address.raw).toBitVec
      (piece options.annotate (p.method.route.label? p.instruction.offset) p.instruction
        (loadConstant r (.ofNat a.address.raw))) rest := by
    refine ⟨toNat_ofNat (by omega), ?_, fun machine => ?_, fun l hl => ?_⟩
    · rw [hlines]
      rw [hfirst] at hisCode ⊢
      exact piece_append hisCode
    · have htop : r.index.val = p.top := hr
      refine run_piece (Line.isCode_of_ins fun _ => loadConstant_ins) ?_
      rw [run_loadConstant, htop]
    · obtain ⟨opcode, word, hopcode, hl⟩ := haccess l hl
      exact ⟨opcode, r, word, hopcode, hr, hl⟩
  have hentry : Statics.allocationLines a <:+: c.lines := by
    have hallocations : Statics.allocationLines a <:+: c.statics.allocations.flatMap
        Statics.allocationLines := List.infix_of_mem_flatten (List.mem_map_of_mem hmem)
    exact (hallocations.trans (List.suffix_cons ..).isInfix).trans (List.suffix_append ..).isInfix
  simp only [Statics.allocationLines, hkey, hlabel, c.sound.initial a hmem] at hentry
  exact ⟨a, _, _, rest, hfound, hloads, hentry, hzeros, hdeclared⟩

end Compilation

theorem code_agrees_with_data {M : Module} {options : Options} {lines : List Line}
    (h : M.compile options = .ok lines) : ∃ c : M.Compilation options, c.lines = lines ∧
      (c.statics.cursor.raw < UInt64.size → c.Agrees) := by
  obtain ⟨c, hlines⟩ := compile_ok.mp h
  refine ⟨c, hlines, fun hsmall => ?_⟩
  exact {
    placed := fun p => p.isInfix
    literal := fun p _ hop => literal_agrees hsmall p hop
    static := fun p _ _ hop => static_agrees hsmall p hop
    once := fun a ha => c.sound.find?_eq_some_iff.mpr ⟨ha, rfl⟩
    written := fun a ha => ⟨c.holds ha, a.bytes_cases (c.sound.literal a ha)⟩
    apart := fun a ha b hb hne => c.sound.apart ha hb hne }

/-- Two methods that share a text and a static field, next to a field without words. -/
def ledger : Module where
  name := "ledger"
  types := [
    ⟨"Mark", .structType, [], []⟩,
    ⟨"Book", .classType, [⟨"mark", .named "Mark", true⟩, ⟨"sum", .primitive .int64, true⟩],
      [{ name := "note", params := [], ret := .void, body := some (MethodDef.number [
          .staticField .address ⟨"Book", "mark"⟩, .pop, .push (.str "paid"), .pop,
          .staticField .load ⟨"Book", "sum"⟩, .staticField .store ⟨"Book", "sum"⟩, .ret]) },
       { name := "Main", params := [], ret := .void, body := some (MethodDef.number [
          .push (.str ""), .pop, .push (.str "paid"), .pop,
          .staticField .address ⟨"Book", "sum"⟩, .pop, .ret]) }]⟩]

theorem code_agrees_with_data_ledger : ∃ c : ledger.Compilation {}, c.Agrees ∧
    c.statics.allocations.map (fun a => (a.key, a.address.raw - Address.poolSegment.raw)) =
      [(.field "Book::mark", 0), (.literal "paid", 0), (.field "Book::sum", 24), (.literal "", 32)] := by
  have hok : (ledger.compile {}).toBool = true := by decide +kernel
  obtain ⟨lines, h⟩ := exists_of_toBool hok
  obtain ⟨c, -, hc⟩ := code_agrees_with_data h
  have hcursor : c.statics.cursor.raw = Address.poolSegment.raw + 56 :=
    c.session_eq (fun s => s.statics.cursor.raw) (by decide +kernel)
  refine ⟨c, hc (by rw [hcursor]; decide), ?_⟩
  refine c.session_eq (fun s => s.statics.allocations.map
    fun a => (a.key, a.address.raw - Address.poolSegment.raw)) ?_
  decide +kernel

end Module

end CilMmix
