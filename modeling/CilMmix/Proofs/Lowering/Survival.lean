import CilMmix.Proofs.Assembly.Scratch
import CilMmix.Proofs.Lowering.Transparency
import CilMmix.Proofs.Simulation.Calls
import CilMmix.Proofs.Simulation.Indirect

/-! Operands survive the code of the instructions above them. It writes no register of an operand below
those that the bytecode consumes, and calls from above all of them. Of those that it consumes, it reads
what it needs before anything else is put there. -/

namespace CilMmix

namespace Op

/-- How many operands on top the instruction reads with all their words. -/
def copies (types : List TypeDef) (elems : List Element) : Op → Nat
  | dup | store _ | field .store _ | staticField .store _ => 1
  | field .load _ => if Layout.structOnTop { types } elems then 1 else 0
  | call ref => ref.params.length
  | _ => 0

/-- The registers that an instruction reads of the operands it consumes: of each the first one, and all of
those that it copies. -/
inductive Draws (types : List TypeDef) (m : MethodDef) (elems : List Element) (op : Op) : Nat → Prop
  | first {e : Element} : e ∈ elems.take (op.pops m) → Draws types m elems op e.offset
  | whole {e : Element} {k : Nat} : e ∈ elems.take (op.copies types elems) → e.offset ≤ k → k < e.stop →
      Draws types m elems op k

variable {types : List TypeDef} {m : MethodDef} {elems : List Element} {op : Op} {base k : Nat}

theorem Draws.lt_top (hs : Shape.Stacked base (shape elems)) (h : op.Draws types m elems k) :
    k < Shape.top base (shape elems) := by
  have hmem : ∀ {n : Nat} {e : Element}, e ∈ elems.take n →
      0 < e.size.words ∧ e.stop ≤ Shape.top base (shape elems) := fun he =>
    (hs.mem (List.mem_map.mpr ⟨_, List.mem_of_mem_take he, rfl⟩)).2
  cases h with
  | first he =>
    obtain ⟨hpos, hstop⟩ := hmem he
    simp only [Element.stop] at hstop
    omega
  | whole he _ hlt => exact Nat.lt_of_lt_of_le hlt (hmem he).2

/-- An instruction without operands reads none. -/
theorem not_draws (hpops : op.pops m = 0) (hcopies : op.copies types elems = 0) :
    ¬ op.Draws types m elems k := by
  intro h
  cases h with
  | first he =>
    rw [hpops] at he
    cases he
  | whole he =>
    rw [hcopies] at he
    cases he

/-- Of one operand that is not copied the first register is read. -/
theorem Draws.eq_offset {e : Element} {rest : List Element} (hpops : op.pops m = 1)
    (hcopies : op.copies types (e :: rest) = 0) (h : op.Draws types m (e :: rest) k) : k = e.offset := by
  cases h with
  | first he =>
    rw [hpops] at he
    rw [List.mem_singleton.mp he]
  | whole he =>
    rw [hcopies] at he
    cases he

end Op

namespace Lower

open Line

variable {used : Nat → Prop} {s t : LowerState} {lines : List Line}

theorem inTime_arith {a : Arith} (h : arith a s = .ok (lines, t)) : InTime used lines := by
  have hbinary : ∀ {code lines s t}, binary code s = .ok (lines, t) →
      ∃ x y : Reg, lines = [.ins code [.reg x, .reg x, .reg y]] := by
    intro code lines s t h
    obtain ⟨x, y, _, _, _, -, -, -, h⟩ := operands_ok h
    exact ⟨x, y, (pure_ok.mp h).1⟩
  have hremainder : ∀ {code}, code ≠ .pushj → remainder code s = .ok (lines, t) → InTime used lines := by
    intro code hcode h
    simp only [remainder, bind_ok, pure_ok] at h
    obtain ⟨_, _, -, divide, _, hdivide, rfl, -⟩ := h
    obtain ⟨x, y, rfl⟩ := hbinary hdivide
    exact inTime_append_of_minds
      (List.forall_mem_singleton.mpr (minds_self hcode List.mem_cons_self)) (inTime_singleton _)
  cases a with
  | rem | remUn => exact hremainder (by decide) h
  | _ =>
    obtain ⟨x, y, rfl⟩ := hbinary h
    exact inTime_singleton _

theorem inTime_compare {origin : String} {c : Comparison} (h : compare origin c s = .ok (lines, t)) :
    InTime used lines := by
  obtain ⟨x, y, _, _, _, -, -, -, h⟩ := operands_ok h
  simp only [bind_ok, pure_ok] at h
  obtain ⟨_, _, -, _, _, -, rfl, -⟩ := h
  have hcodes : c.codes.1 ≠ .pushj ∧ c.codes.2 ≠ .pushj := by cases c <;> decide
  exact inTime_of_minds (List.forall_mem_cons.mpr ⟨minds_self hcodes.1 List.mem_cons_self,
    List.forall_mem_singleton.mpr (minds_self hcodes.2 List.mem_cons_self)⟩)

theorem inTime_compareBranch {c : Condition} {label : String}
    (h : compareBranch c label s = .ok (lines, t)) : InTime used lines := by
  obtain ⟨x, y, _, _, _, -, -, -, h⟩ := operands_ok h
  simp only [bind_ok, pure_ok] at h
  obtain ⟨_, _, -, rfl, -⟩ := h
  have hcode : c.codes.1 ≠ .pushj := by cases c <;> decide
  exact inTime_append_of_minds (a := [_])
    (List.forall_mem_singleton.mpr (minds_self hcode List.mem_cons_self)) (inTime_singleton _)

theorem inTime_convert {i : Instruction} {k : Conversion} (h : convert i k s = .ok (lines, t)) :
    InTime used lines := by
  unfold convert at h
  cases htarget : k.target? with
  | none =>
    rw [htarget] at h
    cases h
  | some target =>
    rw [htarget] at h
    simp only [bind_ok, pure_ok] at h
    obtain ⟨r, _, -, _, _, -, rfl, -⟩ := h
    refine inTime_of_minds ?_
    cases k <;> simp only [Conversion.narrow, List.forall_mem_cons, List.not_mem_nil, false_imp_iff,
      implies_true, and_true] <;>
      first
      | exact ⟨minds_self (by decide) List.mem_cons_self, minds_self (by decide) List.mem_cons_self⟩
      | exact minds_self (by decide) List.mem_cons_self

theorem inTime_length {origin : String} (h : length origin s = .ok (lines, t)) : InTime used lines := by
  obtain ⟨_, _, _, array, -, -, -, -, rfl⟩ := length_ok h
  exact inTime_of_minds (List.forall_mem_cons.mpr ⟨minds_self (by decide) List.mem_cons_self,
    List.forall_mem_singleton.mpr (minds_self (by decide) List.mem_cons_self)⟩)

theorem inTime_copyWords {source dest count : Nat}
    (h : (copyWords source dest count).complete = .ok lines) : InTime used lines :=
  (copyWords_ok h).inTime (safeOrder_copyPairs source dest count)

theorem inTime_duplicate (h : duplicate s = .ok (lines, t)) : InTime used lines := by
  simp only [duplicate, bind_ok, pure_ok, lift_ok] at h
  obtain ⟨e, _, -, _, _, ⟨hcopy, -⟩, _, _, -, rfl, -⟩ := h
  exact inTime_copyWords hcopy

theorem inTime_call {origin : String} {ref : MethodRef} (h : call origin ref s = .ok (lines, t)) :
    InTime used lines := by
  obtain ⟨moves, hole, rfl, -, -, hmoves⟩ := call_ok h
  refine inTime_append (hmoves.inTime (safeOrder_copyPairs ..)) (inTime_singleton _) fun l hl k _ hread => ?_
  rw [List.mem_singleton.mp hl] at hread
  exact hread

section

variable (htop : ∀ k, used k → k < Shape.top s.stack.base (shape s.stack.elems))

include htop

/-- A register above the operands is not one of theirs. -/
theorem not_used_top : ¬ used (Shape.top s.stack.base (shape s.stack.elems)) :=
  fun h => absurd (htop _ h) (Nat.lt_irrefl _)

theorem inTime_loadElement {i : Instruction} {w : Width} (h : loadElement i w s = .ok (lines, t)) :
    InTime used lines := by
  simp only [loadElement, bind_ok, pure_ok, supported_ok, top_ok, lift_ok] at h
  obtain ⟨_, _, ⟨-, rfl⟩, _, _, ⟨-, rfl⟩, scratch, _, ⟨rfl, rfl⟩, _, _, -, _, _, -, _, _, -, _, _, -, _, _,
    ⟨hscale, -⟩, rfl, -⟩ := h
  exact inTime_append_of_minds (scale_minds hscale (not_used_top htop)) (inTime_singleton _)

theorem inTime_storeElement {i : Instruction} {w : Width} (h : storeElement i w s = .ok (lines, t)) :
    InTime used lines := by
  simp only [storeElement, bind_ok, pure_ok, supported_ok, top_ok, lift_ok] at h
  obtain ⟨_, _, ⟨-, rfl⟩, scratch, _, ⟨rfl, rfl⟩, _, _, -, _, _, -, _, _, -, _, _, ⟨hscale, -⟩, rfl, -⟩ := h
  exact inTime_append_of_minds (scale_minds hscale (not_used_top htop)) (inTime_singleton _)

theorem inTime_elementAddress {origin : String} {elem : TypeRef}
    (h : elementAddress origin elem s = .ok (lines, t)) : InTime used lines := by
  simp only [elementAddress, bind_ok, pure_ok, top_ok, lift_ok] at h
  obtain ⟨_, u, hsize, scratch, _, ⟨rfl, rfl⟩, _, _, -, _, _, -, _, _, -, _, _, -, _, _, ⟨hscale, -⟩,
    rfl, -⟩ := h
  rw [(sizeOf_keeps hsize).1] at hscale
  exact inTime_append_of_minds (scale_minds hscale (not_used_top htop)) (inTime_singleton _)

theorem inTime_storeStatic (types : List TypeDef) {f : FieldRef}
    (h : storeStatic f s = .ok (lines, t)) : InTime used lines := by
  obtain ⟨_, _, address, _, accesses, -, -, haddress, rfl, haccess, -⟩ := storeStatic_ok types h
  refine inTime_of_minds (List.forall_mem_append.mpr ⟨loadConstant_minds ?_ _, fun l hl => ?_⟩)
  · rw [haddress]
    exact not_used_top htop
  · obtain ⟨word, -, x, rfl⟩ := exists_of_forall₂ haccess hl
    exact minds_spares rfl

theorem inTime_fieldAddress {origin : String} {f : FieldRef}
    (h : fieldAddress origin f s = .ok (lines, t)) : InTime used lines := by
  obtain ⟨_, object, rest, _, source, -, helems, -, -, -, -, hlines⟩ := fieldAddress_ok h
  refine inTime_of_minds (addNumber_minds hlines ?_)
  rw [helems] at htop
  exact fun hused => absurd (htop _ hused) (Nat.lt_irrefl _)

theorem inTime_storeField {f : FieldRef} (h : storeField f s = .ok (lines, t)) : InTime used lines := by
  obtain ⟨_, value, object, rest, target, parts, -, helems, -, rfl, hparts⟩ := storeField_ok h
  refine inTime_of_minds fun l hl => ?_
  obtain ⟨part, hpart, hl⟩ := List.mem_flatten.mp hl
  obtain ⟨word, -, x, -, haccess⟩ := exists_of_forall₂ hparts hpart
  refine accessAt_minds haccess ?_ (fun _ => minds_spares rfl) l hl
  rw [helems] at htop
  exact fun hused => absurd (htop _ hused) (Nat.lt_irrefl _)

theorem inTime_clear {ty : TypeRef} (h : clear ty s = .ok (lines, t)) : InTime used lines := by
  simp only [clear, bind_ok, pure_ok, top_ok] at h
  obtain ⟨size, u, hsize, scratch, _, ⟨rfl, rfl⟩, address, _, -, parts, _, hparts, rfl, -⟩ := h
  rw [(sizeOf_keeps hsize).1] at hparts
  have hall := (mapM_all (Q := fun part => ∀ l ∈ part, l.Minds used) (fun word u part v hpart =>
    accessAt_minds (lift_ok.mp hpart).1 (not_used_top htop) fun _ => minds_spares rfl) hparts).1
  refine inTime_of_minds fun l hl => ?_
  obtain ⟨part, hpart, hl⟩ := List.mem_flatten.mp hl
  exact hall part hpart l hl

end

theorem inTime_storeSlot {b : Block} {index : Nat} {e top : Element} (he : b.elems[index]? = some e)
    (htop : s.stack.elems.head? = some top) (happart : e.stop ≤ top.offset)
    (h : storeSlot b index s = .ok (lines, t)) : InTime used lines := by
  obtain ⟨e', top', rest, he', helems, -, hmoves⟩ := storeSlot_ok h
  cases he.symm.trans he'
  rw [helems] at htop
  cases htop
  exact hmoves.inTime (safeOrder_apart (.inr happart))

/-- The temporaries of a new array lie above the count, which is replaced last but one. -/
theorem inTime_newArray {origin : String} {elem : TypeRef} {e : Element}
    (he : s.stack.elems.head? = some e) (hused : ∀ k, used k → k = e.offset)
    (h : newArray origin elem s = .ok (lines, t)) : InTime used lines := by
  obtain ⟨_, _, e', rest, scaling, _, count, data, bytes, -, helems, hcount, hdata, hbytes, hscaling, -, -, -,
    rfl⟩ := newArray_ok h
  rw [helems] at he
  cases he
  have habove : ∀ n, e.offset < n → ¬ used n := by
    intro n hn hn'
    have hk := hused n hn'
    omega
  have hbytes' : ¬ used bytes.index.val := habove _ (by omega)
  have hcall : (Line.ins .pushj [.reg data, .sym "malloc"]).Minds used := by
    intro k hk hw
    have hle : data.index.val ≤ k := hw
    have hk := hused k hk
    omega
  refine inTime_append_of_minds ?_ (inTime_append_of_minds (a := [_])
    (List.forall_mem_singleton.mpr (minds_unused (by decide) hbytes')) fun k hk => ?_)
  · simp only [List.cons_append, List.forall_mem_cons, List.forall_mem_append, List.not_mem_nil,
      false_imp_iff, implies_true, and_true]
    exact ⟨minds_unused (by decide) hbytes', ⟨scale_minds hscaling (habove _ (by omega)),
      minds_unused (by decide) hbytes'⟩, hcall, minds_spares rfl⟩
  · refine List.pairwise_pair.mpr fun _ hread => ?_
    have hk := hused k hk
    rcases hread with ⟨hcode, -⟩ | ⟨y, hy, hky⟩
    · rcases hcode with hcode | hcode <;> cases hcode
    · cases List.mem_singleton.mp hy
      omega

/-- Of an object in memory the address is read, and replaced by the word that comes last. -/
theorem inTime_loadField {types : List TypeDef} {origin : String} {f : FieldRef} {ty : TypeRef} {n : Nat}
    (hs : s.layout.Sound types) (hstacked : Shape.Stacked s.stack.base (shape s.stack.elems))
    (hf : FieldHasType types f ty) (hn : HasWords types ty n) (hpos : 0 < n)
    (hused : s.layout.structOnTop s.stack.elems = false →
      ∀ e, s.stack.elems.head? = some e → ∀ k, used k → k = e.offset)
    (h : loadField origin f s = .ok (lines, t)) : InTime used lines := by
  obtain ⟨d, hd, rfl⟩ := hf
  obtain ⟨_, object, rest, result, source, -, helems, hsource, -, hresult, -, hlines⟩ :=
    loadField_ok hs hd hn hpos h
  cases hstruct : s.layout.structOnTop s.stack.elems with
  | true =>
    rw [hstruct, if_pos rfl] at hlines
    exact inTime_copyWords hlines
  | false =>
    rw [hstruct, if_neg Bool.false_ne_true] at hlines
    obtain ⟨parts, rfl, hparts⟩ := hlines
    have hused := hused hstruct object (by rw [helems]; rfl)
    rw [helems] at hstacked
    have hfirst : object.offset = result.offset := hstacked.1.trans hresult.symm
    refine inTime_of_minds fun l hl => ?_
    obtain ⟨part, hpart, hl⟩ := List.mem_flatten.mp hl
    obtain ⟨word, -, x, hx, haccess⟩ := exists_of_forall₂ hparts hpart
    refine accessAt_minds haccess (fun hk => ?_) (fun o => ?_) l hl
    · have hk := hused _ hk
      omega
    · -- Either this is the first word, or it is not a register that is read.
      by_cases hword : word = 0
      · have hself : x = source := by
          obtain ⟨⟨x, _⟩⟩ := x
          obtain ⟨⟨y, _⟩⟩ := source
          simp only at hx hsource
          have hxy : x = y := by omega
          subst hxy
          rfl
        rw [hself]
        exact minds_self (by decide) List.mem_cons_self
      · refine minds_unused (by decide) fun hk => ?_
        have hk := hused _ hk
        omega

variable {types : List TypeDef} {m : MethodDef} {site : Site} {i : Instruction}

theorem pops_le_depth (hf : site.frame.Laid m) (hl : s.layout.Sound types)
    (h : instruction site i s = .ok (lines, t)) : i.op.pops m ≤ s.stack.depth := by
  obtain ⟨-, words, -, hr⟩ := (instruction_effect site i hl).2 lines t h
  have henough := hr.enough
  rw [Op.pops_eq hf]
  rcases keeps_le h with hle | hzero
  · exact hle
  · omega

section

variable (hf : site.frame.Laid m) (hb : s.stack.base = site.frame.stop)
  (hs : Shape.Stacked site.frame.stop (shape s.stack.elems)) (hl : s.layout.Sound types)
  (hret : i.op ≠ .ret) (hfield : ∀ f, i.op = .field .load f ∨ i.op = .staticField .load f →
    ∀ ty, FieldHasType types f ty → ¬ HasWords types ty 0)
  (h : instruction site i s = .ok (lines, t))

include hf hb hs hl hret hfield h

theorem instruction_inTime : InTime (i.op.Draws types m s.stack.elems) lines := by
  have htop : ∀ k, i.op.Draws types m s.stack.elems k → k < Shape.top s.stack.base (shape s.stack.elems) :=
    fun k hk => hb.symm ▸ hk.lt_top hs
  obtain ⟨offset, op⟩ := i
  cases op with
  | ret => exact absurd rfl hret
  | nop | br | load | address | push | «sizeof» => exact fun k hk => absurd hk (Op.not_draws rfl rfl)
  | store v =>
    obtain ⟨e, top, rest, he, helems, -⟩ := storeSlot_ok h
    refine inTime_storeSlot he (by rw [helems]; rfl) ?_ h
    rw [helems] at hs
    exact Nat.le_trans (hf.slot_le he) (hs.mem List.mem_cons_self).1
  | dup => exact inTime_duplicate h
  | pop =>
    simp only [instruction, bind_ok, pure_ok] at h
    obtain ⟨_, _, -, rfl, -⟩ := h
    exact fun _ _ => .nil
  | call ref => exact inTime_call h
  | brFalse target | brTrue target =>
    simp only [instruction, testBranch, bind_ok, pure_ok] at h
    obtain ⟨_, _, -, _, _, -, rfl, -⟩ := h
    exact inTime_singleton _
  | brIf c target => exact inTime_compareBranch h
  | ldind w =>
    obtain ⟨_, _, _, _, _, _, -, -, -, -, -, -, rfl⟩ := loadIndirect_ok h
    exact inTime_singleton _
  | stind w =>
    obtain ⟨_, _, _, _, _, _, -, -, -, -, rfl⟩ := storeIndirect_ok h
    exact inTime_singleton _
  | arith a => exact inTime_arith h
  | neg | not =>
    simp only [instruction, negate, complement, bind_ok, pure_ok] at h
    obtain ⟨_, _, -, rfl, -⟩ := h
    exact inTime_singleton _
  | conv check k => exact inTime_convert h
  | compare c => exact inTime_compare h
  | field a f =>
    cases a with
    | address => exact inTime_fieldAddress htop h
    | store => exact inTime_storeField htop h
    | load =>
      obtain ⟨-, words, ⟨ty, hty, hwords⟩, -⟩ := (instruction_effect site _ hl).2 lines t h
      have hpos : 0 < words := by
        refine Nat.pos_of_ne_zero ?_
        rintro rfl
        exact hfield f (.inl rfl) ty hty hwords
      refine inTime_loadField hl (hb.symm ▸ hs) hty hwords hpos (fun hstruct e he k hk => ?_) h
      have hflag : Layout.structOnTop { types } s.stack.elems = false := by
        rw [← hstruct, Layout.structOnTop, Layout.structOnTop]
        congr 1
        funext e
        exact Layout.isStruct_congr hl.types_eq.symm _
      obtain ⟨rest, helems⟩ := List.head?_eq_some_iff.mp he
      have hcopies : (Op.field .load f).copies types s.stack.elems = 0 := by
        rw [Op.copies, hflag, if_neg Bool.false_ne_true]
      rw [helems] at hk hcopies
      exact hk.eq_offset rfl hcopies
  | staticField a f =>
    cases a with
    | load | address => exact fun k hk => absurd hk (Op.not_draws rfl rfl)
    | store => exact inTime_storeStatic htop types h
  | initobj ty => exact inTime_clear htop h
  | newarr elem =>
    obtain ⟨_, _, e, rest, _, _, _, _, _, -, helems, -⟩ := newArray_ok h
    refine inTime_newArray (by rw [helems]; rfl) (fun k hk => ?_) h
    rw [helems] at hk
    exact hk.eq_offset rfl rfl
  | ldlen => exact inTime_length h
  | ldelem w => exact inTime_loadElement htop h
  | stelem w => exact inTime_storeElement htop h
  | ldelema elem => exact inTime_elementAddress htop h
  | _ => cases h

theorem instruction_spares : Line.Spares (s.stack.elems.drop (i.op.pops m)) lines := by
  have hbelow : ∀ {n : Nat} {e : Element}, e ∈ s.stack.elems.drop n → site.frame.stop ≤ e.offset :=
    fun he => (hs.mem (List.mem_map.mpr ⟨_, List.mem_of_mem_drop he, rfl⟩)).1
  by_cases hstore : ∃ v, i.op = .store v
  · -- A store goes to a variable, and those lie below all operands.
    obtain ⟨offset, op⟩ := i
    obtain ⟨v, rfl⟩ := hstore
    obtain ⟨slot, hslot, hwrites⟩ := storeSlot_writes h
    intro l hl e he r hge hlt hr
    have hslot := hf.slot_le hslot
    have hr := ((hwrites r).mp ⟨l, hl, hr⟩).2
    have hge' := hbelow he
    omega
  by_cases hdup : i.op = .dup
  · obtain ⟨offset, op⟩ := i
    cases hdup
    simp only [instruction, duplicate, bind_ok, pure_ok, lift_ok, peek_ok] at h
    obtain ⟨top, _, ⟨htop, rfl⟩, _, _, ⟨hcopy, -⟩, _, _, -, rfl, -⟩ := h
    intro l hl e he r hge hlt hr
    obtain ⟨p, hp, x, y, hx, -, rfl⟩ := (copyWords_ok hcopy).mem hl
    have hr : r = x.index.val := hr.2
    have hle := copyPairs_ge (Nat.le_refl top.stop) p hp
    obtain ⟨rest, helems⟩ := List.head?_eq_some_iff.mp (List.head?_eq_getElem? .. ▸ htop)
    rw [helems] at hs he
    have hstop : e.stop ≤ Shape.top site.frame.stop (shape rest) :=
      (hs.tail.mem (List.mem_map.mpr ⟨e, he, rfl⟩)).2.2
    have htop : top.offset = Shape.top site.frame.stop (shape rest) := hs.1
    simp only [Element.stop] at hlt hle hstop
    omega
  · have hlocal : ∃ k, Local types site.frame.stop (s.stack.elems.drop (i.op.pops m)) (i.op.pops m) k
        (fun _ => True) (instruction site i) := local_instruction m hret hdup hfield
    obtain ⟨k, hlocal⟩ := hlocal
    have hlen : (s.stack.elems.take (i.op.pops m)).length = i.op.pops m :=
      List.length_take_of_le (pops_le_depth hf hl h)
    refine hlocal.spares hl hlen ?_ ?_ (fun v hv => hstore ⟨v, hv⟩) hret h
    · rw [List.take_append_drop, ← hb]
    · rw [List.take_append_drop]
      exact hs

end

end Lower

/-- Code that leaves operands alone. -/
structure Line.Respects (below : List Element) (drawn : Nat → Prop) (lines : List Line) : Prop where
  /-- No register of those below is written. -/
  spares : Spares below lines
  /-- Calls go through a hole above all of them. -/
  holes : ∀ label x operands, .op label .pushj (.reg x :: operands) ∈ lines →
    ∀ e ∈ below, e.stop ≤ x.index.val
  /-- No scratch register has an operand that is still to be read. -/
  inTime : InTime drawn lines

theorem Line.Spares.piece {below : List Element} {lines : List Line} (h : Spares below lines)
    (hcode : IsCode lines) (annotate : Bool) (label : Option String) (i : Instruction) :
    Spares below (piece annotate label i lines) := by
  intro l hl e he r hge hlt hr
  rcases mem_piece hcode hl with ⟨_, rfl⟩ | ⟨_, rfl⟩ | ⟨l', hl', heq⟩
  · exact hr
  · exact hr
  · rw [← writes_unlabel, heq, writes_unlabel] at hr
    exact h l' hl' e he r hge hlt hr

/-- Operands below an instruction survive it, and those that it consumes are read in time. -/
theorem Lower.operands_survive {M : Module} {m : MethodDef} {σ : Session} {site : Site}
    {before layout : Layout} (hframe : (Frame.build m).run before = .ok (site.frame, layout))
    (hσ : σ.Reached M) {elems : List Element} (hs : Shape.Stacked site.frame.stop (shape elems))
    {annotate : Bool} {label : Option String} {i : Instruction} {lines : List Line} {after : LowerState}
    (hret : i.op ≠ .ret) (hfield : ∀ f, i.op = .field .load f ∨ i.op = .staticField .load f →
      ∀ ty, FieldHasType M.types f ty → ¬ HasWords M.types ty 0)
    (h : (piece annotate site label i).run { σ with stack := ⟨site.frame.stop, elems⟩ } =
      .ok (lines, after)) :
    i.op.pops m ≤ elems.length ∧
      Line.Respects (elems.drop (i.op.pops m)) (i.op.Draws M.types m elems) lines := by
  have hf := (Frame.build_ok hframe).1
  obtain ⟨code, t, hcode, hpiece⟩ := bind_ok.mp h
  obtain ⟨rfl, rfl⟩ := pure_ok.mp hpiece
  have hisCode := instruction_isCode hf rfl hs hcode
  have hspares := (instruction_spares hf rfl hs hσ.sound hret hfield hcode).piece hisCode annotate label i
  refine ⟨pops_le_depth hf hσ.sound hcode, hspares, fun name x operands hmem e he => ?_, ?_⟩
  · -- What a subroutine leaves from the hole on is not known, so no operand may reach there.
    have hpos := (hs.mem (List.mem_map.mpr ⟨e, List.mem_of_mem_drop he, rfl⟩)).2.1
    refine Nat.not_lt.mp fun hlt => ?_
    refine hspares _ hmem e he (e.stop - 1) ?_ ?_ (Nat.le_sub_one_of_lt hlt)
    · simp only [Element.stop]
      omega
    · simp only [Element.stop]
      omega
  · exact Line.inTime_piece hisCode (instruction_inTime hf rfl hs hσ.sound hret hfield hcode) annotate
      label i

namespace Lower

/-- Arrays of forms are counted with the help of a scratch register. -/
def stationery : Module := ⟨"stationery", [Poised.form]⟩

def printer : MethodDef where
  name := "print"
  params := [.string]
  locals := [.primitive .int32]

/-- A count on a text. -/
def countOnText (base : Nat) : List Element :=
  [⟨base + 2, ⟨4⟩, .primitive .int32, none⟩, ⟨base, .ofWords 2, .string, none⟩]

theorem operands_survive_newarr : ∃ (frame : Frame) (layout : Layout) (lines : List Line)
    (after : LowerState), (Frame.build printer).run (Session.ofModule stationery).layout = .ok (frame, layout) ∧
      (piece true (printer.site {} frame) (some "here") ⟨4, .newarr (.named "Form")⟩).run
        ⟨.ofModule stationery, ⟨frame.stop, countOnText frame.stop⟩⟩ = .ok (lines, after) ∧
      Line.Respects [⟨frame.stop, .ofWords 2, .string, none⟩] (fun k => k = frame.stop + 2) lines := by
  have hok : ((Frame.build printer).run (Session.ofModule stationery).layout >>= fun built =>
      (piece true (printer.site {} built.1) (some "here") ⟨4, .newarr (.named "Form")⟩).run
        ⟨.ofModule stationery, ⟨built.1.stop, countOnText built.1.stop⟩⟩).toBool = true := by
    decide +kernel
  have hstop : ((Frame.build printer).run (Session.ofModule stationery).layout).toOption.map
      (fun built => built.1.stop) = some 3 := by decide +kernel
  obtain ⟨⟨lines, after⟩, hrun⟩ := exists_of_toBool hok
  obtain ⟨⟨frame, layout⟩, hframe, h⟩ := bind_eq_ok.mp hrun
  rw [hframe] at hstop
  have hstop : frame.stop = 3 := Option.some.inj hstop
  have hs : Shape.Stacked frame.stop (shape (countOnText frame.stop)) := by
    rw [hstop]
    exact ⟨rfl, by decide, by decide, rfl, by decide, by decide, trivial⟩
  have hsite : (Frame.build printer).run (Session.ofModule stationery).layout =
      .ok ((printer.site {} frame).frame, layout) := hframe
  obtain ⟨-, hrespects⟩ := operands_survive hsite .start hs
    (fun hret => by cases hret) (by rintro f (hf | hf) <;> cases hf) h
  refine ⟨frame, layout, lines, after, hframe, h, hrespects.spares, hrespects.holes, fun k hk => ?_⟩
  have hcount : (Op.newarr (.named "Form")).Draws stationery.types printer (countOnText frame.stop)
      (frame.stop + 2) := .first (e := ⟨frame.stop + 2, _, _, _⟩) List.mem_cons_self
  exact hrespects.inTime k (hk ▸ hcount)

end Lower

end CilMmix
