import CilMmix.Proofs.Lowering.Statics
import CilMmix.Proofs.Method.Accrual
import CilMmix.Proofs.Method.Stitching

/-! Numbers in the code of a method. All of them can be encoded, with one exception: a load or store of a
static field names each word by its distance in bytes, and has no register to put a larger one in. -/

namespace CilMmix

/-- The type of the elements that an instruction counts in. -/
def Op.element? : Op → Option TypeRef
  | newarr elem | ldelema elem => some elem
  | _ => none

/-- Moves between a register and static storage. -/
def Op.movesStatic : Op → Bool
  | staticField .load _ | staticField .store _ => true
  | _ => false

namespace Line

variable {l : Line} {opcode : Opcode} {address : Reg}

theorem IsAccess.encodable_iff {word : Nat} (h : l.IsAccess opcode address word)
    (hcode : opcode.limit = maxImmediate) : l.encodable = true ↔ word < 32 := by
  obtain ⟨x, rfl⟩ := h
  simp only [encodable, ins, hcode, List.all_cons, List.all_nil, Operand.fits_reg, Bool.true_and,
    Bool.and_true, Operand.fits_imm, maxImmediate, wordBytes]
  omega

theorem encodable_accesses {words : List Nat} {lines : List Line}
    (h : List.Forall₂ (IsAccess opcode address) words lines) (hcode : opcode.limit = maxImmediate) :
    (∀ l ∈ lines, l.encodable = true) ↔ ∀ word ∈ words, word < 32 := by
  induction h with
  | nil => simp
  | cons hl _ ih => rw [List.forall_mem_cons, List.forall_mem_cons, hl.encodable_iff hcode, ih]

theorem encodable_piece {lines : List Line} (hcode : IsCode lines) (annotate : Bool)
    (label : Option String) (i : Instruction) :
    (∀ l ∈ piece annotate label i lines, l.encodable = true) ↔ ∀ l ∈ lines, l.encodable = true := by
  constructor
  · intro h l hl
    obtain ⟨l', hl', he⟩ := exists_mem_piece hcode annotate label i hl
    rw [← encodable_unlabel, ← he, encodable_unlabel]
    exact h l' hl'
  · intro h l hl
    rcases mem_piece hcode hl with ⟨text, rfl⟩ | ⟨name, rfl⟩ | ⟨l', hl', he⟩
    · rfl
    · rfl
    · rw [← encodable_unlabel, he, encodable_unlabel]
      exact h l' hl'

end Line

namespace Lower

variable {types : List TypeDef} {site : Site} {m : MethodDef} {s t : LowerState} {code : List Line}

/-- A method hands back fewer words than half the registers, since the result is moved from above the
frame. -/
theorem ends_encodable (hf : site.frame.Laid m) {top : Nat}
    (htop : site.frame.stop < top → top ≤ registerCount) {l : Line} (h : l.Ends site.frame top) :
    l.encodable = true := by
  cases h with
  | remark | jump | halt | nothing => rfl
  | result hpos hle =>
    have hwords : site.frame.ret.words ≤ maxImmediate := by
      have hregisters := htop (by omega)
      have hbackup := hf.backup_le
      have hordered := hf.ordered
      have hret := hf.ret_offset
      have hparams : site.frame.params.offset ≤ site.frame.params.stop := Nat.le_add_right ..
      simp only [registerCount, maxImmediate] at hregisters ⊢
      omega
    simpa [Line.encodable, Line.ins, Opcode.limit] using hwords

theorem log2_le_of_lt {k : Nat} (h : k < UInt64.size) : k.log2 ≤ maxImmediate := by
  by_cases hzero : k = 0
  · rw [hzero]
    decide
  · have hlt : k.log2 < 64 := (Nat.log2_lt hzero).mpr h
    exact Nat.le_of_lt (Nat.lt_trans hlt (by decide))

/-- All code but that of loads and stores of static fields can be encoded. -/
theorem instruction_encodable (hf : site.frame.Laid m)
    (hs : Shape.Stacked site.frame.stop (shape s.stack.elems)) (hb : s.stack.base = site.frame.stop)
    (hl : s.layout.Sound types) {i : Instruction}
    (hstride : ∀ elem, i.op.element? = some elem → ∀ size, HasSize types elem size →
      size.bytes < UInt64.size)
    (hi : i.op.movesStatic = false) (h : instruction site i s = .ok (code, t)) :
    ∀ l ∈ code, l.encodable = true := by
  obtain ⟨n, hreach, hall⟩ := instruction_lines hl h
  have hn : n ≤ maxImmediate := by
    have hsmall : n = 0 → n ≤ maxImmediate := fun he => he ▸ Nat.zero_le _
    have hlog : ∀ elem, i.op.element? = some elem → HasLog types elem n → n ≤ maxImmediate := by
      rintro elem helem ⟨size, hsize, rfl⟩
      exact log2_le_of_lt (hstride elem helem size hsize)
    obtain ⟨offset, op⟩ := i
    cases op with
    | newarr elem | ldelema elem => exact hlog elem rfl hreach
    | staticField a f =>
      cases a with
      | load | store => cases hi
      | address => exact hsmall hreach
    | _ => exact hsmall hreach
  have htop : site.frame.stop < Shape.top s.stack.base (shape s.stack.elems) →
      Shape.top s.stack.base (shape s.stack.elems) ≤ registerCount := by
    cases helems : s.stack.elems with
    | nil =>
      intro hlt
      rw [hb] at hlt
      exact absurd hlt (Nat.lt_irrefl _)
    | cons e rest =>
      rw [helems] at hs
      exact fun _ => hs.2.2.1
  intro l hmem
  rcases hall l hmem with hfits | hends
  · exact hfits.encodable hn
  · exact ends_encodable hf htop hends

/-- The code of a load or store of a static field: the address, then one access for each word. -/
theorem static_accesses (hl : s.layout.Sound types) {i : Instruction} (hi : i.op.movesStatic = true)
    (h : instruction site i s = .ok (code, t)) :
    ∃ (opcode : Opcode) (address : Reg) (value : UInt64) (words : Nat) (order : List Nat)
      (lines : List Line), (opcode = .ldou ∨ opcode = .stou) ∧ order.Perm (List.range words) ∧
      List.Forall₂ (Line.IsAccess opcode address) order lines ∧
      code = loadConstant address value ++ lines ∧ i.op.StaticWords types s.stack.elems words := by
  obtain ⟨offset, op⟩ := i
  cases op with
  | staticField a f =>
    cases a with
    | load =>
      obtain ⟨a, u, address, words, lines, -, -, -, hcode, haccess, hwords⟩ :=
        loadStatic_ok types h
      exact ⟨.ldou, address, _, words, _, lines, .inl rfl, List.reverse_perm _, haccess, hcode,
        hwords hl⟩
    | store =>
      obtain ⟨a, u, address, words, lines, -, -, -, hcode, haccess, hwords⟩ :=
        storeStatic_ok types h
      exact ⟨.stou, address, _, words, _, lines, .inr rfl, .refl _, haccess, hcode, hwords⟩
    | address => cases hi
  | _ => cases hi

end Lower

namespace MethodDef

namespace Compilation

variable {M : Module} {m : MethodDef} {options : Options} {session : Session}
  {c : m.Compilation options session} {i : Nat} {instruction : Instruction} {v : Visit}

theorem head_encodable (c : m.Compilation options session) : ∀ l ∈ c.head, l.encodable = true := by
  intro l hl
  rcases c.head_fits l hl with rfl | hfits
  · rfl
  · exact hfits.encodable (Nat.zero_le _)

theorem visit_encodable (hs : session.Reached M)
    (hstrides : ∀ i ∈ m.code, ∀ elem, i.op.element? = some elem → ∀ size, HasSize M.types elem size →
      size.bytes < UInt64.size)
    (hi : m.code[i]? = some instruction) (hv : c.visit? i = some v)
    (hop : instruction.op.movesStatic = false) : ∀ l ∈ v.lines, l.encodable = true := by
  obtain ⟨σ, after, code, hσ, hstacked, hisCode, hcode, hlines, -⟩ := c.visit_sound hs.sound hi hv
  rw [hlines, Line.encodable_piece hisCode]
  exact Lower.instruction_encodable c.laid hstacked rfl hσ
    (hstrides instruction (List.mem_of_getElem? hi)) hop hcode

/-- A line that cannot be encoded is an access to static storage too far from its address. -/
def TooFar (c : m.Compilation options session) (types : List TypeDef) (l : Line) : Prop :=
  ∃ i instruction v words, m.code[i]? = some instruction ∧ c.visit? i = some v ∧ l ∈ v.lines ∧
    instruction.op.StaticWords types v.arrival words ∧
    ∃ opcode address word, (opcode = .ldou ∨ opcode = .stou) ∧ l.unlabel.IsAccess opcode address word ∧
      32 ≤ word ∧ word < words

theorem tooFar_of_visit (hs : session.Reached M) (hi : m.code[i]? = some instruction)
    (hv : c.visit? i = some v) (hop : instruction.op.movesStatic = true) {l : Line} (hl : l ∈ v.lines)
    (hbad : l.encodable = false) : c.TooFar M.types l := by
  obtain ⟨σ, after, code, hσ, -, hisCode, hcode, hlines, -⟩ := c.visit_sound hs.sound hi hv
  obtain ⟨opcode, address, value, words, order, lines, hopcode, horder, haccess, rfl, hwords⟩ :=
    Lower.static_accesses hσ hop hcode
  have hlimit : opcode.limit = maxImmediate := by
    rcases hopcode with rfl | rfl <;> rfl
  have hmem : l ∈ piece options.annotate (c.route.label? instruction.offset) instruction
      (loadConstant address value ++ lines) := hlines ▸ hl
  rcases Line.mem_piece hisCode hmem with ⟨text, rfl⟩ | ⟨name, rfl⟩ | ⟨l', hl', he⟩
  · cases hbad
  · cases hbad
  have hbad' : l'.encodable = false := by
    rw [← Line.encodable_unlabel, ← he, Line.encodable_unlabel]
    exact hbad
  rcases List.mem_append.mp hl' with hl' | hl'
  · have hgood : l'.encodable = true :=
      (loadConstant_fits address value l' hl' : l'.Fits 0).encodable (Nat.zero_le _)
    cases hgood.symm.trans hbad'
  · obtain ⟨word, hword, hl'⟩ := Line.exists_word haccess hl'
    have hnot : ¬ word < 32 := fun hlt => by
      have hgood := (hl'.encodable_iff hlimit).mpr hlt
      cases hgood.symm.trans hbad'
    have hlt := List.mem_range.mp (horder.mem_iff.mp hword)
    obtain ⟨x, rfl⟩ := hl'
    exact ⟨i, instruction, v, words, hi, hv, hl, hwords, opcode, address, word, hopcode, ⟨x, he⟩,
      by omega, hlt⟩

/-- A load or store of more than thirty-two words has an access that is too far. -/
theorem words_le_of_encodable (hs : session.Reached M) (hi : m.code[i]? = some instruction)
    (hv : c.visit? i = some v) {words : Nat}
    (hwords : instruction.op.StaticWords M.types v.arrival words)
    (hall : ∀ l ∈ v.lines, l.encodable = true) : words ≤ 32 := by
  have hop : instruction.op.movesStatic = true := by
    cases hwords' : instruction.op with
    | staticField a f =>
      rw [hwords'] at hwords
      cases hwords <;> rfl
    | _ =>
      rw [hwords'] at hwords
      cases hwords
  obtain ⟨σ, after, code, hσ, -, hisCode, hcode, hlines, -⟩ := c.visit_sound hs.sound hi hv
  obtain ⟨opcode, address, value, words', order, lines, hopcode, horder, haccess, rfl, hwords'⟩ :=
    Lower.static_accesses hσ hop hcode
  cases hwords.unique hwords'
  rw [hlines, Line.encodable_piece hisCode, List.forall_mem_append] at hall
  have hlimit : opcode.limit = maxImmediate := by
    rcases hopcode with rfl | rfl <;> rfl
  have hnear := (Line.encodable_accesses haccess hlimit).mp hall.2
  by_contra hgt
  have hmem : 32 ∈ order := horder.mem_iff.mpr (List.mem_range.mpr (by omega))
  exact absurd (hnear 32 hmem) (by decide)

/-- The numbers in the code of a method can be encoded, but for static fields of many words. -/
structure Encodes (c : m.Compilation options session) (types : List TypeDef) : Prop where
  only : ∀ l ∈ c.lines, l.encodable = false → c.TooFar types l
  all_iff : (∀ l ∈ c.lines, l.encodable = true) ↔ ∀ i instruction v words,
    m.code[i]? = some instruction → c.visit? i = some v →
    instruction.op.StaticWords types v.arrival words → words ≤ 32

theorem encodes (c : m.Compilation options session) (hs : session.Reached M)
    (hstrides : ∀ i ∈ m.code, ∀ elem, i.op.element? = some elem → ∀ size, HasSize M.types elem size →
      size.bytes < UInt64.size) : c.Encodes M.types := by
  have honly : ∀ l ∈ c.lines, l.encodable = false → c.TooFar M.types l := by
    intro l hl hbad
    rcases mem_lines hl with hl | ⟨i, v, hv, hl⟩ | rfl
    · cases (c.head_encodable l hl).symm.trans hbad
    · obtain ⟨instruction, _, _, _, hi, -⟩ := c.visit_code hv
      cases hop : instruction.op.movesStatic with
      | true => exact tooFar_of_visit hs hi hv hop hl hbad
      | false => cases (visit_encodable hs hstrides hi hv hop l hl).symm.trans hbad
    · cases hbad
  refine ⟨honly, fun hall i instruction v words hi hv hwords => ?_, fun hsmall l hl => ?_⟩
  · refine words_le_of_encodable hs hi hv hwords fun l hl => hall l ?_
    rw [lines_eq hv]
    exact List.mem_append_left _ (List.mem_append_right _ hl)
  · by_contra hbad
    obtain ⟨i, instruction, v, words, hi, hv, -, hwords, _, _, word, -, -, hge, hlt⟩ :=
      honly l hl (Bool.eq_false_iff.mpr hbad)
    have hle := hsmall i instruction v words hi hv hwords
    omega

end Compilation

theorem numbers_encodable {M : Module} (m : MethodDef) (options : Options)
    {session session' : Session} {lines : List Line} (hs : session.Reached M)
    (hstrides : ∀ i ∈ m.code, ∀ elem, i.op.element? = some elem → ∀ size, HasSize M.types elem size →
      size.bytes < UInt64.size)
    (h : m.compile options session = .ok (lines, session')) :
    ∃ c : m.Compilation options session, c.lines = lines ∧ c.Encodes M.types := by
  obtain ⟨c, hlines, -⟩ := compile_ok.mp h
  exact ⟨c, hlines, c.encodes hs hstrides⟩

/-- A module with a struct of so many words and a static field that holds one. -/
def expanse (words : Nat) : Module where
  name := "expanse"
  types := [
    ⟨"Wide", .structType, (List.range words).map fun k => ⟨toString k, .primitive .int64, false⟩, []⟩,
    ⟨"Host", .classType, [⟨"wide", .named "Wide", true⟩], []⟩]

/-- A method that makes an array and loads the static field. -/
def fetchWide : MethodDef where
  name := "fetchWide"
  params := []
  ret := .void
  body := some (number [.push (.int32 1000000), .newarr (.primitive .int32), .pop,
    .staticField .load ⟨"Host", "wide"⟩, .pop, .ret])

theorem numbers_encodable_fetchWide : ∃ c : fetchWide.Compilation {} (.ofModule (expanse 32)),
    c.Encodes (expanse 32).types := by
  have hstrides : ∀ i ∈ fetchWide.code, ∀ elem, i.op.element? = some elem → ∀ size,
      HasSize (expanse 32).types elem size → size.bytes < UInt64.size := by
    have helems : ∀ i ∈ fetchWide.code, i.op.element? = none ∨
        i.op.element? = some (.primitive .int32) := by decide
    intro i hi elem helem size hsize
    rcases helems i hi with hnone | hint
    · cases hnone.symm.trans helem
    · cases hint.symm.trans helem
      cases hsize
      decide
  have hok : (fetchWide.compile {} (.ofModule (expanse 32))).toBool = true := by decide +kernel
  obtain ⟨⟨lines, session⟩, h⟩ := exists_of_toBool hok
  obtain ⟨c, -, hc⟩ := numbers_encodable fetchWide {} .start hstrides h
  exact ⟨c, hc⟩

theorem wide_static_not_encodable :
    (fetchWide.compile {} (.ofModule (expanse 33))).toOption.map
      (fun r => r.1.filter fun l => !l.encodable) =
    some [.ins .ldou [.reg ⟨33⟩, .reg ⟨1⟩, .imm 256]] := by
  decide +kernel

end MethodDef

end CilMmix
