import CilMmix.Proofs.Simulation.Transfer

/-! The code of arithmetic, comparisons, conversions and branches does what they do to the store. -/

namespace CilMmix

namespace Word

theorem sign_slt (less : Word → Word → Bool) (a b : Word) :
    BitVec.slt (sign less a b) 0 = less a b := by
  unfold sign
  cases less a b <;> cases less b a <;> decide

theorem slt_sign {less : Word → Word → Bool} {a b : Word} (h : less a b = true → less b a = false) :
    BitVec.slt 0 (sign less a b) = less b a := by
  unfold sign
  cases hab : less a b with
  | true => simp [h hab]
  | false => cases less b a <;> decide

theorem sign_eq_zero (less : Word → Word → Bool) (a b : Word) :
    sign less a b = 0#64 ↔ less a b = false ∧ less b a = false := by
  unfold sign
  cases less a b <;> cases less b a <;> decide

theorem slt_asymm {a b : Word} (h : a.slt b = true) : b.slt a = false := by
  rw [BitVec.slt_eq_decide, decide_eq_true_iff] at h
  rw [BitVec.slt_eq_decide, decide_eq_false_iff_not]
  omega

theorem ult_asymm {a b : Word} (h : a.ult b = true) : b.ult a = false := by
  rw [BitVec.ult_eq_decide, decide_eq_true_iff] at h
  rw [BitVec.ult_eq_decide, decide_eq_false_iff_not]
  omega

theorem sign_slt_eq_zero {a b : Word} : sign BitVec.slt a b = 0#64 ↔ a = b := by
  simp only [sign_eq_zero, BitVec.slt_eq_decide, decide_eq_false_iff_not]
  rw [← BitVec.toInt_inj]
  omega

theorem sign_ult_eq_zero {a b : Word} : sign BitVec.ult a b = 0#64 ↔ a = b := by
  simp only [sign_eq_zero, BitVec.ult_eq_decide, decide_eq_false_iff_not]
  rw [← BitVec.toNat_inj]
  omega

end Word

/-- Comparing, and making the outcome a truth value. -/
theorem Comparison.codes_holds (c : Comparison) : ∃ f g, c.codes.1.binary? = some f ∧
    c.codes.2.binary? = some g ∧ ∀ a b, g (f a b) 1 = if c.holds a b then 1 else 0 := by
  -- All but equality make the truth value of a condition on the outcome.
  have htruth : ∀ {p q : Bool}, p = q → (if p then 1 else 0 : Word) = if q then 1 else 0 :=
    fun h => by rw [h]
  cases c with
  | eq => exact ⟨_, _, rfl, rfl, fun a b => by simp [holds, Word.sign_slt_eq_zero]⟩
  | gt => exact ⟨_, _, rfl, rfl, fun a b => htruth (Word.slt_sign Word.slt_asymm)⟩
  | gtUn => exact ⟨_, _, rfl, rfl, fun a b => htruth (Word.slt_sign Word.ult_asymm)⟩
  | lt | ltUn => exact ⟨_, _, rfl, rfl, fun a b => htruth (Word.sign_slt ..)⟩

/-- Comparing, and branching on the outcome. -/
theorem Condition.codes_holds (c : Condition) : ∃ f taken, c.codes.1.binary? = some f ∧
    c.codes.2.test? = some taken ∧ ∀ a b, taken (f a b) = c.holds a b := by
  cases c with
  | eq => exact ⟨_, _, rfl, rfl, fun a b => by simp [holds, Word.sign_slt_eq_zero]⟩
  | neUn => exact ⟨_, _, rfl, rfl, fun a b => by simp [holds, bne, Word.sign_ult_eq_zero]⟩
  | ge | geUn | lt | ltUn => exact ⟨_, _, rfl, rfl, fun a b => by simp only [holds, Word.sign_slt]⟩
  | gt | le =>
    exact ⟨_, _, rfl, rfl, fun a b => by simp only [holds, Word.slt_sign Word.slt_asymm]⟩
  | gtUn | leUn =>
    exact ⟨_, _, rfl, rfl, fun a b => by simp only [holds, Word.slt_sign Word.ult_asymm]⟩

theorem Conversion.words_target {k : Conversion} {p : Primitive} (h : k.target? = some p) :
    p.size.words = 1 := by
  cases k <;> cases h <;> rfl

theorem Conversion.narrow_ins (k : Conversion) (r : Reg) :
    ∀ l ∈ k.narrow r, ∃ c operands, l = Line.ins c operands := by
  cases k <;> simp [narrow]

theorem Conversion.run_narrow (k : Conversion) (r : Reg) (m : Machine) :
    run (k.narrow r) m = (m.set r.index.val (k.keep (m.regs r.index.val)), .fall) := by
  cases k with
  | i1 | u1 => rfl
  | i2 | u2 =>
    have hshift : ∀ w : Word, (w <<< 48) >>> 48 = w &&& 0xFFFF := by
      intro w
      have hmask : w.toNat &&& 65535 = w.toNat % 65536 := Nat.and_two_pow_sub_one_eq_mod w.toNat 16
      apply BitVec.eq_of_toNat_eq
      simp only [BitVec.toNat_ushiftRight, BitVec.toNat_shiftLeft, BitVec.toNat_and,
        Nat.shiftLeft_eq, Nat.shiftRight_eq_div_pow]
      change _ = w.toNat &&& 65535
      omega
    exact congrArg (·, _) ((m.set_set _ _ _).trans (congrArg _ (by simp; exact hshift _)))
  | i4 | i8 | u4 | u8 | i | u | r4 | r8 | rUn => exact congrArg (·, _) (m.set_regs_self _).symm

section

variable {site : Site} {elems rest : List Element} {code : List Line} {machine : Machine}

/-- Code for an instruction that takes a number has to be right for an operand of one word. -/
theorem Simulated.of_number {e : Element} {k : Word × Store → Except Halt (Store × Option UInt32)}
    (h : e.size.words = 1 → Simulated site elems code machine
      (k (machine.regs e.offset, site.frame.store rest machine.regs))) :
    Simulated site elems code machine
      ((site.frame.store (e :: rest) machine.regs).popNumber >>= k) := by
  rcases site.frame.popNumber_store e rest machine.regs with ⟨he, hpop⟩ | hpop
  · rw [hpop]
    exact h he
  · rw [hpop]
    trivial

theorem Simulated.of_numbers {e e' : Element}
    {k : (Word × Word) × Store → Except Halt (Store × Option UInt32)}
    (h : e.size.words = 1 → Simulated site elems code machine
      (k ((machine.regs e.offset, machine.regs e'.offset), site.frame.store rest machine.regs))) :
    Simulated site elems code machine
      ((site.frame.store (e' :: e :: rest) machine.regs).popNumbers >>= k) := by
  rcases site.frame.popNumbers_store e e' rest machine.regs with ⟨he, -, hpop⟩ | hpop
  · rw [hpop]
    exact h he
  · rw [hpop]
    trivial

theorem Simulated.of_branch {store : Store} (after : Machine) {taken : Bool} {target : UInt32}
    (hrun : run code machine =
      (after, if taken then .jump (site.branchLabel target) else .fall))
    (hstore : store = site.frame.store elems after.regs) :
    Simulated site elems code machine (.ok (store, if taken then some target else none)) := by
  cases taken <;> exact ⟨after, hrun, hstore⟩

end

namespace Lower

variable {site : Site} {m : MethodDef} {s t : LowerState} {code : List Line}

theorem operands_ok {k : Reg → Reg → Lower (List Line)}
    (h : (do
      let a ← operand 1 0
      let b ← operand 0 0
      let _ ← pop
      k a b) s = .ok (code, t)) : ∃ (a b : Reg) (e e' : Element) (rest : List Element),
      s.stack.elems = e' :: e :: rest ∧ a.index.val = e.offset ∧ b.index.val = e'.offset ∧
        k a b (s.withElems (e :: rest)) = .ok (code, t) := by
  simp only [bind_ok, operand_ok, pop_ok] at h
  obtain ⟨a, s, ⟨⟨e, he, ha⟩, rfl⟩, b, s, ⟨⟨e', he', hb⟩, rfl⟩, _, _,
    ⟨_, rest, helems, -, rfl⟩, hk⟩ := h
  rw [helems] at he he'
  cases he'
  cases rest with
  | nil => cases he
  | cons _ rest =>
    cases he
    exact ⟨a, b, e, e', rest, helems, ha, hb, hk⟩

theorem realizes_binary (hf : site.frame.Laid m)
    (hs : Shape.Stacked site.frame.stop (shape s.stack.elems)) {c : Opcode} {a : Arith}
    {f : Word → Word → Word} (hc : c.binary? = some f) (ha : a.eval? = some f)
    (h : binary c s = .ok (code, t)) : Realizes site s t code (.arith a) := by
  obtain ⟨x, y, e, e', rest, helems, hx, hy, h⟩ := operands_ok h
  obtain ⟨rfl, rfl⟩ := pure_ok.mp h
  rw [helems] at hs
  refine .of_ins hs.tail (by simp) fun machine => ?_
  rw [Op.execute, ha, helems]
  refine .of_numbers fun hlen => ⟨machine.set e.offset (f (machine.regs e.offset)
    (machine.regs e'.offset)), ?_, ?_⟩
  · simp [run, Line.act_binary hc, Operand.value, hx, hy]
  · exact (hf.store_set hs.tail hlen _ _).symm

theorem realizes_arith (hf : site.frame.Laid m)
    (hs : Shape.Stacked site.frame.stop (shape s.stack.elems)) {a : Arith}
    (ha : (Op.arith a).isScalar = true) (h : arith a s = .ok (code, t)) :
    Realizes site s t code (.arith a) := by
  cases a with
  | div | divUn | rem | remUn => cases ha
  | add | sub | mul | and | or | xor | shl | shr | shrUn => exact realizes_binary hf hs rfl rfl h

theorem realizes_unary (hf : site.frame.Laid m)
    (hs : Shape.Stacked site.frame.stop (shape s.stack.elems)) {c : Opcode} {op : Op}
    {operands : Reg → List Operand} {f : Word → Word}
    (hline : ∀ (r : Reg) machine, (Line.ins c (operands r)).act machine =
      .go (machine.set r.index.val (f (machine.regs r.index.val))))
    (hop : ∀ returns store, op.execute returns store =
      (do let (a, s) ← store.popNumber; return (s.push [f a], none)))
    (h : (do let r ← operand 0 0; return [.ins c (operands r)] : Lower (List Line)) s =
      .ok (code, t)) : Realizes site s t code op := by
  simp only [bind_ok, pure_ok, operand_ok] at h
  obtain ⟨x, _, ⟨⟨e, he, hx⟩, rfl⟩, rfl, rfl⟩ := h
  refine .of_ins hs (by simp) fun machine => ?_
  cases helems : t.stack.elems with
  | nil => simp [helems] at he
  | cons _ rest =>
    rw [helems] at hs he
    cases he
    rw [hop]
    refine .of_number fun hlen => ⟨machine.set e.offset (f (machine.regs e.offset)), ?_, ?_⟩
    · simp [run, hline, hx]
    · exact (hf.store_set hs hlen _ _).symm

theorem realizes_negate (hf : site.frame.Laid m)
    (hs : Shape.Stacked site.frame.stop (shape s.stack.elems)) (h : negate s = .ok (code, t)) :
    Realizes site s t code .neg :=
  realizes_unary hf hs
    (fun r machine => (Line.act_binary rfl rfl rfl).trans (by simp)) (fun _ _ => rfl) h

theorem realizes_complement (hf : site.frame.Laid m)
    (hs : Shape.Stacked site.frame.stop (shape s.stack.elems)) (h : complement s = .ok (code, t)) :
    Realizes site s t code .not :=
  realizes_unary hf hs
    (fun r machine => (Line.act_binary rfl rfl rfl).trans (by simp)) (fun _ _ => rfl) h

theorem realizes_compare (hf : site.frame.Laid m) (hb : s.stack.base = site.frame.stop)
    (hs : Shape.Stacked site.frame.stop (shape s.stack.elems)) {origin : String} {c : Comparison}
    (h : compare origin c s = .ok (code, t)) : Realizes site s t code (.compare c) := by
  obtain ⟨x, y, e, e', rest, helems, hx, hy, h⟩ := operands_ok h
  simp only [bind_ok, pure_ok, pop_ok, push_primitive_ok (p := .bool) rfl] at h
  obtain ⟨_, _, ⟨_, _, hrest, -, rfl⟩, _, _, ⟨hfit, rfl⟩, rfl, rfl⟩ := h
  obtain ⟨rfl, rfl⟩ := List.cons.inj hrest
  rw [helems] at hs
  have htop : e.offset = Shape.top site.frame.stop (shape rest) := hs.tail.1
  have hone : Primitive.bool.size.words = 1 := rfl
  obtain ⟨f, g, hf', hg, hholds⟩ := c.codes_holds
  simp only [LowerState.withElems_base, LowerState.withElems_elems, hb, ← htop] at hfit
  have hnew : Shape.Stacked site.frame.stop
      (shape (⟨e.offset, Primitive.bool.size, .primitive .bool, some origin⟩ :: rest)) :=
    hs.tail.tail.number htop hone hfit
  simp only [LowerState.withElems_base, LowerState.withElems_elems, hb, ← htop]
  refine .of_ins hnew (by simp) fun machine => ?_
  rw [Op.execute, helems]
  refine .of_numbers fun _ => ⟨machine.set e.offset (if c.holds (machine.regs e.offset)
    (machine.regs e'.offset) then 1 else 0), ?_, ?_⟩
  · rw [← hholds]
    simp [run, Line.act_binary hf', Line.act_binary hg, Operand.value, Machine.set_set, hx, hy]
  · exact (hf.store_set hnew hone _ _).symm

theorem realizes_compareBranch (hf : site.frame.Laid m)
    (hs : Shape.Stacked site.frame.stop (shape s.stack.elems)) {c : Condition} {target : UInt32}
    (h : compareBranch c (site.branchLabel target) s = .ok (code, t)) :
    Realizes site s t code (.brIf c target) := by
  obtain ⟨x, y, e, e', rest, helems, hx, hy, h⟩ := operands_ok h
  simp only [bind_ok, pure_ok, pop_ok] at h
  obtain ⟨_, _, ⟨_, _, hrest, -, rfl⟩, rfl, rfl⟩ := h
  obtain ⟨rfl, rfl⟩ := List.cons.inj hrest
  rw [helems] at hs
  have htop : e.offset = Shape.top site.frame.stop (shape rest) := hs.tail.1
  obtain ⟨f, taken, hf', htaken, hholds⟩ := c.codes_holds
  refine .of_ins hs.tail.tail (by simp) fun machine => ?_
  rw [Op.execute, helems]
  refine .of_numbers fun _ => .of_branch (machine.set e.offset (f (machine.regs e.offset)
    (machine.regs e'.offset))) ?_ ?_
  · rw [run, Line.act_binary hf' rfl rfl, ← hholds]
    simp only [run_test htaken, hx, hy, Machine.set_regs, Function.update_self]
  · exact (hf.store_scratch hs.tail.tail (Nat.le_of_eq htop.symm) _ _).symm

theorem realizes_testBranch (hs : Shape.Stacked site.frame.stop (shape s.stack.elems)) {c : Opcode}
    {op : Op} {target : UInt32} {taken : Word → Bool} (hc : c.test? = some taken)
    (hop : ∀ returns store, op.execute returns store =
      (do let (a, s) ← store.popNumber; return (s, if taken a then some target else none)))
    (h : testBranch c (site.branchLabel target) s = .ok (code, t)) : Realizes site s t code op := by
  simp only [testBranch, bind_ok, pure_ok, operand_ok, pop_ok] at h
  obtain ⟨x, s, ⟨⟨e, he, hx⟩, rfl⟩, _, _, ⟨_, rest, helems, -, rfl⟩, rfl, rfl⟩ := h
  rw [helems] at hs he
  cases he
  refine .of_ins hs.tail (by simp) fun machine => ?_
  rw [hop, helems]
  refine .of_number fun _ => .of_branch machine ?_ rfl
  rw [run_test hc, hx, Nat.add_zero]

theorem realizes_convert (hf : site.frame.Laid m) (hb : s.stack.base = site.frame.stop)
    (hs : Shape.Stacked site.frame.stop (shape s.stack.elems)) {i : Instruction} {check : OverflowCheck}
    {k : Conversion} (h : convert i k s = .ok (code, t)) : Realizes site s t code (.conv check k) := by
  unfold convert at h
  cases htarget : k.target? with
  | none =>
    rw [htarget] at h
    cases h
  | some target =>
    rw [htarget] at h
    have hone := Conversion.words_target htarget
    simp only [bind_ok, pure_ok, pop_ok, push_primitive_ok hone] at h
    obtain ⟨x, _, ⟨e, rest, helems, hx, rfl⟩, _, _, ⟨hfit, rfl⟩, rfl, rfl⟩ := h
    rw [helems] at hs
    have htop : e.offset = Shape.top site.frame.stop (shape rest) := hs.1
    simp only [LowerState.withElems_base, LowerState.withElems_elems, hb, ← htop] at hfit ⊢
    have hnew : Shape.Stacked site.frame.stop
        (shape (⟨e.offset, target.size, .primitive target, some i.op.mnemonic⟩ :: rest)) :=
      hs.tail.number htop hone hfit
    refine .of_ins hnew (k.narrow_ins x) fun machine => ?_
    obtain ⟨ws, hread⟩ := e.read_of_pos hs.2.1 machine.regs
    simp only [Op.execute, helems, Frame.store, List.map_cons, hread]
    refine ⟨_, k.run_narrow x machine, ?_⟩
    rw [hx, Machine.set_regs]
    exact (hf.store_set hnew hone _ _).symm

theorem realizes_br (hs : Shape.Stacked site.frame.stop (shape s.stack.elems)) {target : UInt32}
    (h : (return [.ins .jmp [.sym (site.branchLabel target)]] : Lower (List Line)) s = .ok (code, t)) :
    Realizes site s t code (.br target) := by
  obtain ⟨rfl, rfl⟩ := pure_ok.mp h
  exact .of_ins hs (by simp) fun machine => ⟨machine, rfl, rfl⟩

theorem realizes_nop (hs : Shape.Stacked site.frame.stop (shape s.stack.elems))
    (h : (return [] : Lower (List Line)) s = .ok (code, t)) : Realizes site s t code .nop := by
  obtain ⟨rfl, rfl⟩ := pure_ok.mp h
  exact .of_ins hs nofun fun machine => ⟨machine, rfl, rfl⟩

end Lower

end CilMmix
