import CilMmix.Proofs.Lowering.Region
import CilMmix.Proofs.Simulation.Places
import CilMmix.Proofs.Simulation.Return

/-! The pieces of a method: every instruction that was reached has code of plain operations, under its
label and after its remark. -/

namespace CilMmix

namespace Line

variable {lines : List Line}

/-- A line of a piece is a remark, bears only a label, or is one of the code. -/
theorem mem_piece (hcode : IsCode lines) {annotate : Bool} {label : Option String} {i : Instruction}
    {l : Line} (hl : l ∈ piece annotate label i lines) :
    (∃ text, l = .comment text) ∨ (∃ name, l = .bare name) ∨ ∃ l' ∈ lines, l.unlabel = l'.unlabel := by
  rw [piece_eq hcode.plain] at hl
  rcases List.mem_append.mp hl with hl | hl
  · split at hl
    · exact .inl ⟨_, List.mem_singleton.mp hl⟩
    · cases hl
  · right
    cases label with
    | none => exact .inr ⟨l, hl, rfl⟩
    | some label =>
      rcases hcode.starts with rfl | ⟨code, operands, rest, rfl⟩
      · exact .inl ⟨label, List.mem_singleton.mp hl⟩
      · rcases List.mem_cons.mp hl with rfl | hl
        · exact .inr ⟨_, List.mem_cons_self, rfl⟩
        · exact .inr ⟨l, List.mem_cons_of_mem _ hl, rfl⟩

theorem exists_mem_piece (hcode : IsCode lines) (annotate : Bool) (label : Option String)
    (i : Instruction) {l : Line} (hl : l ∈ lines) :
    ∃ l' ∈ piece annotate label i lines, l'.unlabel = l.unlabel := by
  rw [piece_eq hcode.plain]
  cases label with
  | none => exact ⟨l, List.mem_append_right _ hl, rfl⟩
  | some label =>
    rcases hcode.starts with rfl | ⟨code, operands, rest, rfl⟩
    · cases hl
    · rcases List.mem_cons.mp hl with rfl | hl
      · exact ⟨_, List.mem_append_right _ List.mem_cons_self, rfl⟩
      · exact ⟨l, List.mem_append_right _ (List.mem_cons_of_mem _ hl), rfl⟩

end Line

namespace Lower

variable {site : Site} {m : MethodDef} {s t : LowerState} {code : List Line}

theorem linkLines_works (hf : site.frame.Laid m) {o : Option Reg} (h : site.frame.backupReg = .ok o) :
    ∀ l ∈ linkLines o, l.Works 0 site.frame.calls none := by
  intro l hl
  cases o with
  | none => cases hl
  | some r =>
    obtain rfl := List.mem_singleton.mp hl
    have hname : Text.Inline "rJ" := by decide
    exact ⟨⟨_, _, rfl, nofun, by simp [hname], nofun⟩, nofun, nofun, fun _ => (hf.backupReg_some h).1⟩

theorem stopLines_works (halts calls : Bool) : ∀ l ∈ stopLines halts, l.Works 0 calls none := by
  cases halts with
  | true =>
    refine List.forall_mem_cons.mpr ⟨.sets rfl (Nat.zero_le _) (by simp), List.forall_mem_singleton.mpr ?_⟩
    have hname : Text.Inline "Halt" := by decide
    exact ⟨⟨_, _, rfl, nofun, by simp [hname], nofun⟩, nofun, nofun, nofun⟩
  | false => exact List.forall_mem_singleton.mpr (.spares rfl rfl (by simp))

theorem giveBack_works {f : Frame} {calls : Bool} (h : giveBack f s = .ok (code, t)) :
    ∀ l ∈ code, l.Works 0 calls none := by
  obtain ⟨first, others, e, rest, -, -, -, -, rfl, hfirst, hothers⟩ := giveBack_ok h
  simp only [List.forall_mem_append, List.forall_mem_singleton]
  exact ⟨⟨hfirst.works fun _ _ => Nat.zero_le _, hothers.works fun _ _ => Nat.zero_le _⟩,
    .spares rfl rfl (by simp)⟩

/-- The code of any instruction: operations, and after those of a return perhaps a remark. -/
theorem instruction_works (hf : site.frame.Laid m) (hb : s.stack.base = site.frame.stop)
    (hs : Shape.Stacked site.frame.stop (shape s.stack.elems)) {i : Instruction}
    (h : instruction site i s = .ok (code, t)) : ∃ body remark, code = body ++ remark ∧
      (∀ l ∈ body, l.Works 0 (i.op.isCall || site.frame.calls)
        (i.op.branchTarget?.map site.branchLabel)) ∧
      (∀ l ∈ remark, l = .comment "stack not empty !!") ∧ (body = [] → remark = []) := by
  obtain ⟨offset, op⟩ := i
  by_cases hret : op = .ret
  · subst hret
    obtain ⟨o, leave, remark, hbackup, rfl, hremark, hleave⟩ := ret_ok h
    have hleave : leave ≠ [] ∧ ∀ l ∈ leave, l.Works 0 site.frame.calls none := by
      rcases hleave with ⟨-, rfl, -⟩ | ⟨-, hgive⟩
      · refine ⟨?_, stopLines_works _ _⟩
        cases site.halts <;> exact List.cons_ne_nil _ _
      · refine ⟨?_, giveBack_works hgive⟩
        obtain ⟨_, _, _, _, -, -, -, -, rfl, -⟩ := giveBack_ok hgive
        exact List.append_ne_nil_of_right_ne_nil _ (List.cons_ne_nil _ _)
    refine ⟨linkLines o ++ leave, remark, rfl, ?_, hremark, fun he => ?_⟩
    · exact List.forall_mem_append.mpr ⟨linkLines_works hf hbackup, hleave.2⟩
    · exact absurd (List.append_eq_nil_iff.mp he).2 hleave.1
  · refine ⟨code, [], (List.append_nil _).symm, ?_, nofun, fun _ => rfl⟩
    by_cases hstore : ∃ v, op = .store v
    · obtain ⟨v, rfl⟩ := hstore
      obtain ⟨_, _, _, -, -, -, hmoves⟩ := storeSlot_ok h
      exact hmoves.works fun _ _ => Nat.zero_le _
    · have hemits : Emits site.frame.stop op.isCall (op.branchTarget?.map site.branchLabel)
          (instruction site ⟨offset, op⟩) :=
        emits_instruction site ⟨offset, op⟩ (fun v hv => hstore ⟨v, hv⟩) hret
      exact fun l hl => ((hemits s hb hs code t h).2.2 l hl).mono (Nat.zero_le _) fun hc => by
        rw [hc, Bool.true_or]

theorem instruction_isCode (hf : site.frame.Laid m) (hb : s.stack.base = site.frame.stop)
    (hs : Shape.Stacked site.frame.stop (shape s.stack.elems)) {i : Instruction}
    (h : instruction site i s = .ok (code, t)) : Line.IsCode code := by
  obtain ⟨body, remark, rfl, hbody, hremark, hne⟩ := instruction_works hf hb hs h
  have hins : ∀ l ∈ body, ∃ c operands, l = Line.ins c operands := by
    intro l hl
    obtain ⟨c, operands, rfl, -⟩ := (hbody l hl).isOp
    exact ⟨c, operands, rfl⟩
  by_cases he : body = []
  · rw [he, hne he]
    exact ⟨nofun, .inl rfl⟩
  · exact isCode_of_parts he hins fun l hl => ⟨_, hremark l hl⟩

end Lower

namespace MethodDef.Compilation

variable {m : MethodDef} {options : Options} {session : Session}

/-- The operands that an instruction finds lie one above the other, whatever the layout remembers. -/
theorem covers_operands (c : m.Compilation options session) : c.Covers (fun _ => True)
    fun _ elems => Shape.Stacked c.frame.stop (shape elems) := by
  refine .of_carries (fun i instruction elems σ lines after o _ hs _ hvisit _ => ?_) trivial trivial
  obtain ⟨code, hcode, -⟩ := Route.visit_ok.mp hvisit
  have hstays : Lower.Stays c.frame.stop (fun _ => True) (Lower.instruction c.route.site instruction) :=
    Lower.stays_instruction c.route.site instruction
  exact ⟨trivial, fun _ _ => (hstays _ rfl hs code after hcode).2.1⟩

/-- How an instruction that was reached got its code. -/
theorem visit_code (c : m.Compilation options session) {i : Nat} {v : Visit}
    (hv : c.visit? i = some v) : ∃ instruction σ after code, m.code[i]? = some instruction ∧
      Shape.Stacked c.frame.stop (shape v.arrival) ∧
      c.route.visit instruction v.arrival σ = .ok (v.lines, after) ∧
      Lower.instruction c.route.site instruction
        { σ with stack := ⟨c.frame.stop, v.arrival⟩ } = .ok (code, after) ∧
      v.lines = piece options.annotate (c.route.label? instruction.offset) instruction code := by
  obtain ⟨hs, instruction, σ, after, hi, -, hvisit, -⟩ := c.covers_operands.visit_spec hv
  obtain ⟨code, hcode, hlines⟩ := Route.visit_ok.mp hvisit
  exact ⟨instruction, σ, after, code, hi, hs, hvisit, hcode, hlines⟩

theorem coded (c : m.Compilation options session) : c.Coded := by
  intro i instruction v hs
  obtain ⟨instruction', σ, after, code, hi, hstacked, -, hcode, hlines⟩ :=
    c.visit_code (visit?_eq_some.mpr ⟨instruction, hs⟩)
  have hi' : m.code[i]? = some instruction := c.covers_operands.1.instruction_eq hs
  cases hi.symm.trans hi'
  exact ⟨hi, code, Lower.instruction_isCode c.laid rfl hstacked hcode, hlines⟩

theorem mem_lines {c : m.Compilation options session} {l : Line} (hl : l ∈ c.lines) :
    l ∈ c.head ∨ (∃ i v, c.visit? i = some v ∧ l ∈ v.lines) ∨ l = .blank := by
  simp only [lines, List.mem_append, List.mem_singleton] at hl
  rcases hl with (hl | hl) | rfl
  · exact .inl hl
  · obtain ⟨s, hs, hl⟩ := List.mem_flatMap.mp hl
    obtain ⟨i, hi⟩ := List.mem_iff_getElem?.mp hs
    obtain ⟨v, hv, hl⟩ := visit_of_mem_lines hi hl
    exact .inr (.inl ⟨i, v, hv, hl⟩)
  · exact .inr (.inr rfl)

end MethodDef.Compilation

end CilMmix
