import CilMmix.Proofs.Simulation.Numbers

/-! How a method returns: the return address goes back, and the result to the registers that the
machine hands to the caller. -/

namespace CilMmix

theorem run_append_of_stop {a b : List Line} {m m' : Machine} {line : Line}
    (h : run a m = (m', .stop line)) : run (a ++ b) m = (m', .stop line) := by
  induction a generalizing m with
  | nil => cases h
  | cons l a ih =>
    rw [run] at h
    rw [List.cons_append, run]
    cases hl : l.act m with
    | go m₁ =>
      rw [hl] at h
      exact ih h
    | jump label =>
      rw [hl] at h
      cases h
    | stop =>
      rw [hl] at h
      exact h

/-- The first word goes to the last of the registers and the others before it, so that the machine
hands them over in their order. -/
theorem handed_runMoves {source n : Nat} (hn : 0 < n) (h : n ≤ source) (r : Registers) :
    (runMoves (copyPairs (source + 1) 0 (n - 1)) (runMoves (copyPairs source (n - 1) 1) r)).handed n =
      r.read source n := by
  obtain ⟨k, rfl⟩ := Nat.exists_eq_add_of_lt hn
  simp only [Nat.zero_add, Nat.add_sub_cancel] at h ⊢
  rw [Registers.handed, Registers.read_succ, read_copy, copy_outside (.inr (by omega))]
  congr 1
  · exact copy_inside Nat.one_pos r
  · exact Registers.read_congr fun j hj _ => copy_outside (.inr (by omega)) r

namespace Frame

/-- The return address is where a method that makes calls has put it. -/
def relink (f : Frame) (m : Machine) : Machine :=
  if f.calls then { m with special := Function.update m.special "rJ" (m.regs f.backup.offset) }
  else m

@[simp] theorem relink_regs (f : Frame) (m : Machine) : (f.relink m).regs = m.regs := by
  unfold relink
  split <;> rfl

/-- The value that a return gives back: none, or the operand on top, if it is as wide as the result. -/
def Result (f : Frame) (elems : List Element) (r : Registers) (v : Value) : Prop :=
  (f.ret.elems.isEmpty = true ∧ v = []) ∨ (f.ret.elems.isEmpty = false ∧
    ∃ e rest, elems = e :: rest ∧ e.size.words = f.ret.words ∧ v = e.read r)

theorem Result.length_eq {f : Frame} {elems : List Element} {r : Registers} {v : Value}
    (h : f.Result elems r v) : v.length = f.ret.words := by
  rcases h with ⟨he, rfl⟩ | ⟨-, e, rest, -, hwords, rfl⟩
  · rw [Block.words, List.isEmpty_iff.mp he]
    rfl
  · rw [Element.length_read, hwords]

end Frame

/-- The lines end the method with a value, and the return address is back in place then. -/
def Site.Leaves (site : Site) (v : Value) (lines : List Line) (machine : Machine) : Prop :=
  ∃ after line, run lines machine = (after, .stop line) ∧
    after.special = (site.frame.relink machine).special ∧ site.Exits v line after

theorem Site.Leaves.append {site : Site} {v : Value} {lines : List Line} {machine : Machine}
    (h : site.Leaves v lines machine) (rest : List Line) : site.Leaves v (lines ++ rest) machine := by
  obtain ⟨after, line, hrun, hspecial, hexits⟩ := h
  exact ⟨after, line, run_append_of_stop hrun, hspecial, hexits⟩

namespace Lower

variable {site : Site} {m : MethodDef} {s t : LowerState} {code : List Line}

/-- The line that puts the return address back. -/
def linkLines : Option Reg → List Line
  | some r => [.ins .put [.sym "rJ", .reg r]]
  | none => []

theorem linkLines_ins (o : Option Reg) : ∀ l ∈ linkLines o, ∃ c operands, l = Line.ins c operands := by
  cases o <;> simp [linkLines]

theorem run_linkLines (hf : site.frame.Laid m) {o : Option Reg} (h : site.frame.backupReg = .ok o)
    (machine : Machine) : run (linkLines o) machine = (site.frame.relink machine, .fall) := by
  rcases hf.backupReg_ok h with ⟨hc, rfl⟩ | ⟨r, hc, rfl, hr⟩
  · simp [linkLines, Frame.relink, hc]
  · simp [linkLines, Frame.relink, hc, run, Line.ins, Line.act, Opcode.act, hr]

theorem ret_ok (h : ret site s = .ok (code, t)) : ∃ o leave remark, site.frame.backupReg = .ok o ∧
      code = linkLines o ++ leave ++ remark ∧ (∀ l ∈ remark, l = .comment "stack not empty !!") ∧
      ((site.frame.ret.elems.isEmpty = true ∧ leave = stopLines site.halts ∧ t = s) ∨
        (site.frame.ret.elems.isEmpty = false ∧ giveBack site.frame s = .ok (leave, t))) := by
  have hremark : ∀ u : LowerState, ∀ l ∈ (if u.stack.elems.isEmpty then []
      else [Line.comment "stack not empty !!"]), l = .comment "stack not empty !!" := by
    intro u
    split <;> simp
  simp only [ret, bind_ok, lift_ok] at h
  obtain ⟨o, s, ⟨hbackup, rfl⟩, h⟩ := h
  split at h
  · rename_i he
    simp only [bind_ok, pure_ok, get_ok] at h
    obtain ⟨leave, t, ⟨rfl, rfl⟩, t, _, ⟨rfl, rfl⟩, rfl, rfl⟩ := h
    exact ⟨o, _, _, hbackup, rfl, hremark t, .inl ⟨he, rfl, rfl⟩⟩
  · rename_i he
    simp only [bind_ok, pure_ok, get_ok] at h
    obtain ⟨leave, t, hleave, t, _, ⟨rfl, rfl⟩, rfl, rfl⟩ := h
    exact ⟨o, _, _, hbackup, rfl, hremark t, .inr ⟨Bool.not_eq_true _ ▸ he, hleave⟩⟩

theorem giveBack_ok {f : Frame} (h : giveBack f s = .ok (code, t)) :
    ∃ first others e rest, s.stack.elems = e :: rest ∧ t = s.withElems rest ∧ 0 < f.ret.words ∧
      f.stop + f.ret.words ≤ Shape.top s.stack.base (shape s.stack.elems) ∧
      code = first ++ others ++ [.ins .pop [.imm f.ret.words, .imm 0]] ∧
      Moves (copyPairs (Shape.top s.stack.base (shape s.stack.elems) - f.ret.words)
        (f.ret.offset + f.ret.words - 1) 1) first ∧
      Moves (copyPairs (Shape.top s.stack.base (shape s.stack.elems) - f.ret.words + 1)
        f.ret.offset (f.ret.words - 1)) others := by
  simp only [giveBack, bind_ok, top_ok] at h
  obtain ⟨_, s, ⟨rfl, rfl⟩, h⟩ := h
  split at h
  · cases h
  rename_i hstop
  split at h
  · cases h
  rename_i hwords
  simp only [bind_ok, pure_ok, pop_ok, lift_ok] at h
  obtain ⟨first, s, ⟨hfirst, rfl⟩, others, s, ⟨hothers, rfl⟩, _, _,
    ⟨e, rest, helems, -, rfl⟩, rfl, rfl⟩ := h
  exact ⟨first, others, e, rest, helems, rfl, Nat.pos_of_ne_zero hwords, Nat.not_lt.mp hstop, rfl,
    copyWords_ok hfirst, copyWords_ok hothers⟩

/-- The result is handed over: its first word last. -/
theorem run_giveBack (hf : site.frame.Laid m)
    (hs : Shape.Stacked site.frame.stop (shape s.stack.elems))
    (h : giveBack site.frame s = .ok (code, t)) :
    ∃ e rest, s.stack.elems = e :: rest ∧ t = s.withElems rest ∧ code ≠ [] ∧
      (∀ l ∈ code, ∃ c operands, l = Line.ins c operands) ∧
      ∀ machine, ∃ after, run code machine =
          (after, .stop (.ins .pop [.imm site.frame.ret.words, .imm 0])) ∧
        after.special = machine.special ∧ (e.size.words = site.frame.ret.words →
          after.regs.handed site.frame.ret.words = e.read machine.regs) := by
  have hret := hf.ret_offset
  -- The result goes to registers below the operands, so none of its words is lost on the way.
  have hle : site.frame.ret.words ≤ site.frame.stop := by
    have hb := hf.backup_le
    have ho := hf.ordered
    have hp : site.frame.params.offset ≤ site.frame.params.stop := Nat.le_add_right ..
    omega
  obtain ⟨first, others, e, rest, helems, rfl, -, -, rfl, hfirst, hothers⟩ := giveBack_ok h
  simp only [hret, Nat.zero_add] at hfirst hothers
  refine ⟨e, rest, helems, rfl, by simp, ?_, fun machine => ?_⟩
  · intro l hl
    simp only [List.mem_append, List.mem_singleton] at hl
    rcases hl with (hl | hl) | rfl
    · exact hfirst.ins l hl
    · exact hothers.ins l hl
    · exact ⟨_, _, rfl⟩
  · rw [List.append_assoc, run_append (run_moves hfirst machine), run_append (run_moves hothers _)]
    refine ⟨_, rfl, rfl, fun he => ?_⟩
    rw [helems] at hs
    have hbase := (hs.mem List.mem_cons_self).1
    have hpos := (hs.mem List.mem_cons_self).2.1
    have hsource : Shape.top s.stack.base (shape s.stack.elems) - site.frame.ret.words = e.offset := by
      rw [helems, ← he]
      exact Nat.add_sub_cancel ..
    rw [hsource, Element.read, he]
    exact handed_runMoves (he ▸ hpos) (Nat.le_trans hle hbase) machine.regs

theorem stopLines_ins (halts : Bool) :
    ∀ l ∈ stopLines halts, ∃ c operands, l = Line.ins c operands := by
  cases halts <;> simp [stopLines]

theorem isCode_of_parts {body remark : List Line} (hne : body ≠ [])
    (hbody : ∀ l ∈ body, ∃ c operands, l = Line.ins c operands)
    (hremark : ∀ l ∈ remark, ∃ text, l = .comment text) : Line.IsCode (body ++ remark) where
  plain l hl := by
    rcases List.mem_append.mp hl with hl | hl
    · exact (Line.isCode_of_ins hbody).plain l hl
    · obtain ⟨text, rfl⟩ := hremark l hl
      trivial
  starts := by
    obtain ⟨l, rest, rfl⟩ := List.exists_cons_of_ne_nil hne
    obtain ⟨c, operands, rfl⟩ := hbody l List.mem_cons_self
    exact .inr ⟨c, operands, rest ++ remark, rfl⟩

/-- What a return leaves of the operands, and the value that the method ends with. -/
theorem leaves_ret (hf : site.frame.Laid m)
    (hs : Shape.Stacked site.frame.stop (shape s.stack.elems)) (h : ret site s = .ok (code, t)) :
    Line.IsCode code ∧ ((site.frame.ret.elems.isEmpty = true ∧ t = s) ∨
        (site.frame.ret.elems.isEmpty = false ∧
          ∃ e rest, s.stack.elems = e :: rest ∧ t = s.withElems rest)) ∧
      ∀ machine v, site.frame.Result s.stack.elems machine.regs v → site.Leaves v code machine := by
  obtain ⟨o, leave, remark, hbackup, rfl, hremark, ⟨he, rfl, rfl⟩ | ⟨he, hgive⟩⟩ := ret_ok h
  · have hne : linkLines o ++ stopLines site.halts ≠ [] := by
      cases hhalts : site.halts <;> simp [stopLines]
    refine ⟨isCode_of_parts hne (List.forall_mem_append.mpr ⟨linkLines_ins o, stopLines_ins _⟩)
      (fun l hl => ⟨_, hremark l hl⟩), .inl ⟨he, rfl⟩, fun machine v hv => .append ?_ remark⟩
    rcases hv with ⟨-, rfl⟩ | ⟨he', -⟩
    · rw [Site.Leaves, run_append (run_linkLines hf hbackup machine)]
      cases hhalts : site.halts with
      | true => exact ⟨_, _, rfl, rfl, by simp [Site.Exits, he, hhalts, Reg.trap]⟩
      | false => exact ⟨_, _, rfl, rfl, by simp [Site.Exits, hhalts, Registers.handed]⟩
    · cases he.symm.trans he'
  · obtain ⟨e, rest, helems, rfl, hne, hins, hrun⟩ := run_giveBack hf hs hgive
    refine ⟨isCode_of_parts (by simp [hne]) (List.forall_mem_append.mpr ⟨linkLines_ins o, hins⟩)
      (fun l hl => ⟨_, hremark l hl⟩), .inr ⟨he, e, rest, helems, rfl⟩, fun machine v hv => .append ?_ remark⟩
    rcases hv with ⟨he', -⟩ | ⟨-, e', rest', helems', hwords, rfl⟩
    · cases he.symm.trans he'
    · cases helems.symm.trans helems'
      rw [Site.Leaves, run_append (run_linkLines hf hbackup machine)]
      obtain ⟨after, hrun, hspecial, hhanded⟩ := hrun (site.frame.relink machine)
      refine ⟨after, _, hrun, hspecial, ?_⟩
      rw [Site.Exits, he, Bool.false_and, if_neg Bool.false_ne_true, Element.length_read, hwords]
      exact ⟨rfl, (hhanded hwords).trans (by rw [Frame.relink_regs])⟩

theorem realizes_ret (hf : site.frame.Laid m)
    (hs : Shape.Stacked site.frame.stop (shape s.stack.elems)) (h : ret site s = .ok (code, t)) :
    Realizes site s t code .ret := by
  obtain ⟨hcode, hrest, hleaves⟩ := leaves_ret hf hs h
  rcases hrest with ⟨he, rfl⟩ | ⟨he, e, rest, helems, rfl⟩
  · refine ⟨hs, hcode, fun _ machine => ?_⟩
    obtain ⟨after, line, hrun, -, hexits⟩ := hleaves machine [] (.inl ⟨he, rfl⟩)
    simp only [Op.execute, Frame.returns, he, if_true]
    exact ⟨after, line, hrun, hexits⟩
  · refine ⟨(helems ▸ hs).tail, hcode, fun _ machine => ?_⟩
    simp only [Op.execute, Frame.returns, he, helems, Frame.store, List.map_cons, if_false,
      Bool.false_eq_true]
    split
    · rename_i hwords
      obtain ⟨after, line, hrun, -, hexits⟩ := hleaves machine _
        (.inr ⟨he, e, rest, helems, by simpa using hwords, rfl⟩)
      exact ⟨after, line, hrun, hexits⟩
    · trivial

/-- Every instruction that evaluation covers has code that does what it does. -/
theorem realizes_instruction (hf : site.frame.Laid m) (hb : s.stack.base = site.frame.stop)
    (hs : Shape.Stacked site.frame.stop (shape s.stack.elems)) {i : Instruction}
    (hi : i.op.isScalar = true) (h : instruction site i s = .ok (code, t)) :
    Realizes site s t code i.op := by
  obtain ⟨offset, op⟩ := i
  cases op with
  | nop => exact realizes_nop hs h
  | load v => exact realizes_load hf hb hs h
  | store v => exact realizes_store hf hs h
  | push l => exact realizes_literal hf hb hs hi h
  | dup => exact realizes_dup hf hb hs h
  | pop => exact realizes_pop hs h
  | ret => exact realizes_ret hf hs h
  | br t => exact realizes_br hs h
  | brFalse t => exact realizes_testBranch hs rfl (fun _ _ => rfl) h
  | brTrue t => exact realizes_testBranch hs rfl (fun _ _ => rfl) h
  | brIf c t => exact realizes_compareBranch hf hs h
  | arith a => exact realizes_arith hf hs hi h
  | neg => exact realizes_negate hf hs h
  | not => exact realizes_complement hf hs h
  | conv check k => exact realizes_convert hf hb hs h
  | compare c => exact realizes_compare hf hb hs h
  | _ => cases hi

end Lower

end CilMmix
