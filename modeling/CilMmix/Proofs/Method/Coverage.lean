import CilMmix.Proofs.Method.Joins

/-! The walk over a body comes to an end and translates no instruction twice. In a method that compiles
it translates the instructions that control can come to, and a method is turned down for a missing
target exactly when one is missing. -/

namespace CilMmix

namespace Walk

/-- The instruction at a position has no code so far. -/
def fresh (w : Walk) (i : Nat) : Bool := w.stops[i]?.any fun s => s.visit.isNone

/-- A walk arrival by arrival: how many there are, the positions at which `route.visit` is called on the
way, and the end. -/
inductive Trace (route : Route) : Except Fault Walk → Nat → List Nat → Except Fault Walk → Prop
  | fault (fault : Fault) : Trace route (.error fault) 0 [] (.error fault)
  | done {w : Walk} : w.queue = [] → Trace route (.ok w) 0 [] (.ok w)
  | pass {w : Walk} {i n : Nat} {arriving : List Element} {queue : List (Nat × List Element)}
      {calls : List Nat} {result : Except Fault Walk} : w.queue = (i, arriving) :: queue →
      (∀ instruction, w.stops[i]? ≠ some ⟨instruction, none⟩) →
      Trace route (w.pass i arriving queue) n calls result → Trace route (.ok w) (n + 1) calls result
  | visit {w : Walk} {i n : Nat} {arriving : List Element} {queue : List (Nat × List Element)}
      {calls : List Nat} {result : Except Fault Walk} {instruction : Instruction} :
      w.queue = (i, arriving) :: queue → w.stops[i]? = some ⟨instruction, none⟩ →
      Trace route (route.visit instruction arriving w.session >>=
        w.record route.body i instruction arriving queue) n calls result →
      Trace route (.ok w) (n + 1) (i :: calls) result

variable {route : Route} {w w' : Walk} {x : Except Fault Walk} {i n : Nat} {arriving : List Element}
  {queue : List (Nat × List Element)} {calls : List Nat} {result : Except Fault Walk}

theorem fresh_iff : w.fresh i = true ↔ ∃ instruction, w.stops[i]? = some ⟨instruction, none⟩ := by
  rw [fresh, Option.any_eq_true]
  constructor
  · rintro ⟨⟨instruction, visit⟩, hs, hv⟩
    cases Option.isNone_iff_eq_none.mp hv
    exact ⟨instruction, hs⟩
  · rintro ⟨instruction, hs⟩
    exact ⟨_, hs, rfl⟩

/-- Each arrival of a walk is one of the two kinds. -/
theorem trace_of_step (hq : w.queue = (i, arriving) :: queue)
    (h : Trace route (w.step route i arriving queue) n calls result) :
    ∃ calls', Trace route (.ok w) (n + 1) calls' result := by
  by_cases hi : w.fresh i = true
  · obtain ⟨instruction, hs⟩ := fresh_iff.mp hi
    rw [step_of_fresh hs] at h
    exact ⟨i :: calls, .visit hq hs h⟩
  · have hs : ∀ instruction, w.stops[i]? ≠ some ⟨instruction, none⟩ :=
      fun instruction hs => hi (fresh_iff.mpr ⟨instruction, hs⟩)
    rw [step_eq_pass hs] at h
    exact ⟨calls, .pass hq hs h⟩

theorem exists_trace (route : Route) (w : Walk) :
    ∃ n calls, Trace route (.ok w) n calls (w.run route) ∧ n ≤ w.remaining := by
  induction hn : w.remaining using Nat.strongRecOn generalizing w with
  | ind k ih =>
    rw [run]
    split
    · rename_i hq
      exact ⟨0, [], .done hq, Nat.zero_le _⟩
    · rename_i i arriving queue hq
      have hpos : 0 < w.remaining := by
        rw [remaining, hq, List.length_cons]
        omega
      split
      · rename_i fault hs
        have hrest : Trace route (w.step route i arriving queue) 0 [] (.error fault) := by
          rw [hs]
          exact .fault fault
        obtain ⟨calls, htrace⟩ := trace_of_step hq hrest
        exact ⟨1, calls, htrace, by omega⟩
      · rename_i v hs
        have hlt := remaining_step hq hs
        obtain ⟨n, _, hrest, hle⟩ := ih v.remaining (by omega) v rfl
        rw [← hs] at hrest
        obtain ⟨calls, htrace⟩ := trace_of_step hq hrest
        exact ⟨n + 1, calls, htrace, by omega⟩

/-- An arrival takes the instruction at its position from those without code. -/
theorem fresh_step (h : w.step route i arriving queue = .ok w') (j : Nat) :
    w'.fresh j = true ↔ w.fresh j = true ∧ j ≠ i := by
  have hkept : w.fresh i = false → (w.fresh j = true ↔ w.fresh j = true ∧ j ≠ i) := by
    intro hi
    refine ⟨fun hj => ⟨hj, ?_⟩, And.left⟩
    rintro rfl
    cases hi.symm.trans hj
  rcases step_ok h with ⟨hs, rfl⟩ | ⟨instruction, first, hs, -, rfl⟩ |
      ⟨instruction, lines, after, o, hs, -, -, rfl⟩
  · exact hkept (by simp [fresh, hs])
  · exact hkept (by simp [fresh, hs])
  · have hlt := (List.getElem?_eq_some_iff.mp hs).1
    by_cases hj : i = j
    · subst hj
      simp [fresh, List.getElem?_set_self hlt]
    · have hne : j ≠ i := fun he => hj he.symm
      simp [fresh, List.getElem?_set_ne hj, hne]

theorem Trace.fresh_of_mem (h : Trace route x n calls result) {j : Nat} (hj : j ∈ calls) :
    ∃ w, x = .ok w ∧ w.fresh j = true := by
  induction h with
  | fault | done => cases hj
  | @pass w i n arriving queue _ _ _ hs _ ih =>
    obtain ⟨w', hw', hfresh⟩ := ih hj
    have hstep : w.step route i arriving queue = .ok w' := (step_eq_pass hs).trans hw'
    exact ⟨w, rfl, ((fresh_step hstep j).mp hfresh).1⟩
  | @visit w i n arriving queue _ _ instruction _ hs _ ih =>
    refine ⟨w, rfl, ?_⟩
    rcases List.mem_cons.mp hj with rfl | hj
    · exact Walk.fresh_iff.mpr ⟨instruction, hs⟩
    · obtain ⟨w', hw', hfresh⟩ := ih hj
      rw [← step_of_fresh hs] at hw'
      exact ((fresh_step hw' j).mp hfresh).1

/-- `route.visit` is called once at a position. -/
theorem Trace.nodup (h : Trace route x n calls result) : calls.Nodup := by
  induction h with
  | fault | done => exact List.nodup_nil
  | pass _ _ _ ih => exact ih
  | @visit w i n arriving queue calls _ instruction _ hs htrace ih =>
    refine List.nodup_cons.mpr ⟨fun hi => ?_, ih⟩
    obtain ⟨w', hw', hfresh⟩ := htrace.fresh_of_mem hi
    rw [← step_of_fresh hs] at hw'
    exact ((fresh_step hw' i).mp hfresh).2 rfl

theorem Trace.exists_ok {v : Walk} (h : Trace route x n calls (.ok v)) : ∃ w, x = .ok w := by
  cases h with
  | done | pass | visit => exact ⟨_, rfl⟩

/-- What a walk leaves without code is where `route.visit` was not called. -/
theorem Trace.fresh_iff {v : Walk} (h : Trace route x n calls result) (hv : result = .ok v)
    (hx : x = .ok w) (j : Nat) : v.fresh j = true ↔ w.fresh j = true ∧ j ∉ calls := by
  induction h generalizing w with
  | fault => cases hv
  | done =>
    cases hv
    cases hx
    simp
  | @pass w i n arriving queue calls _ _ hs htrace ih =>
    cases hx
    subst hv
    obtain ⟨w', hw'⟩ := htrace.exists_ok
    have hstep : w.step route i arriving queue = .ok w' := (step_eq_pass hs).trans hw'
    rw [ih rfl hw', fresh_step hstep]
    refine and_congr_left fun _ => and_iff_left_of_imp ?_
    rintro hj rfl
    obtain ⟨instruction, hj⟩ := Walk.fresh_iff.mp hj
    exact hs instruction hj
  | @visit w i n arriving queue calls _ instruction _ hs htrace ih =>
    cases hx
    subst hv
    obtain ⟨w', hw'⟩ := htrace.exists_ok
    have hstep : w.step route i arriving queue = .ok w' := (step_of_fresh hs).trans hw'
    rw [ih rfl hw', fresh_step hstep, List.mem_cons, not_or, and_assoc]

theorem remaining_start (body : List Instruction) (session : Session) :
    (start body session).remaining = 2 * body.length + 1 := by
  simp [remaining, start, unvisited, List.countP_map, Function.comp_def]

theorem fresh_start (body : List Instruction) (session : Session) (i : Nat) :
    (start body session).fresh i = true ↔ i < body.length := by
  rw [fresh, start, List.getElem?_map]
  cases hi : body[i]? with
  | none => simpa using List.getElem?_eq_none_iff.mp hi
  | some instruction => simpa using (List.getElem?_eq_some_iff.mp hi).1

end Walk

/-- Of the instructions at a code offset the last one counts. -/
def Resolves (body : List Instruction) (t : UInt32) (j : Nat) : Prop :=
  (∃ i, body[j]? = some i ∧ i.offset = t) ∧ ∀ k i, body[k]? = some i → i.offset = t → k ≤ j

/-- Control passes from one position to another: on to the next one, unless the instruction jumps or
returns, or to the target of a branch. -/
inductive Control (body : List Instruction) : Nat → Nat → Prop
  | fall {i : Nat} {instruction : Instruction} : body[i]? = some instruction →
      (instruction.op.flow = .next ∨ ∃ t, instruction.op.flow = .branch t) → Control body i (i + 1)
  | target {i j : Nat} {instruction : Instruction} {t : UInt32} : body[i]? = some instruction →
      instruction.op.branchTarget? = some t → Resolves body t j → Control body i j

section

variable {body : List Instruction} {t : UInt32} {i j : Nat}

theorem position?_eq_none : position? body t = none ↔ ∀ i ∈ body, i.offset ≠ t := by
  simp only [position?, List.findRev?_eq_find?_reverse, Option.map_eq_none_iff, List.find?_eq_none,
    List.mem_reverse]
  constructor
  · intro h i hi he
    obtain ⟨k, hk⟩ := List.mem_iff_getElem?.mp hi
    exact h (i, k) (List.mem_zipIdx_iff_getElem?.mpr hk) (beq_iff_eq.mpr he)
  · intro h p hp he
    have hi := List.mem_zipIdx_iff_getElem?.mp hp
    exact h p.1 (List.mem_of_getElem? hi) (beq_iff_eq.mp he)

theorem resolves_of_position? (h : position? body t = some j) : Resolves body t j := by
  refine ⟨position?_eq_some h, fun k i hk he => ?_⟩
  simp only [position?, List.findRev?_eq_find?_reverse, Option.map_eq_some_iff] at h
  obtain ⟨⟨last, j⟩, hfind, rfl⟩ := h
  obtain ⟨-, later, earlier, hsplit, hlater⟩ := List.find?_eq_some_iff_append.mp hfind
  have hsplit : body.zipIdx = earlier.reverse ++ (last, j) :: later.reverse := by
    have hrev := congrArg List.reverse hsplit
    simpa using hrev
  have hlength : earlier.reverse.length = j := by
    have hat : body.zipIdx[earlier.reverse.length]? = some (last, j) := by simp [hsplit]
    simp only [List.getElem?_zipIdx, Option.map_eq_some_iff, Prod.mk.injEq] at hat
    obtain ⟨_, -, -, hat⟩ := hat
    omega
  have hat : body.zipIdx[k]? = some (i, k) := by simp [List.getElem?_zipIdx, hk]
  rcases Nat.lt_or_ge j k with hlt | hle
  · -- An instruction further on with the offset would have been found first.
    obtain ⟨d, rfl⟩ : ∃ d, k = earlier.reverse.length + (d + 1) := ⟨k - j - 1, by omega⟩
    rw [hsplit, List.getElem?_append_right (Nat.le_add_right ..), Nat.add_sub_cancel_left,
      List.getElem?_cons_succ] at hat
    have hbad := hlater _ (List.mem_reverse.mp (List.mem_of_getElem? hat))
    simp [he] at hbad
  · exact hle

theorem resolves_iff : Resolves body t j ↔ position? body t = some j := by
  refine ⟨fun ⟨⟨i, hi, he⟩, hlast⟩ => ?_, resolves_of_position?⟩
  cases hp : position? body t with
  | none => exact absurd he (position?_eq_none.mp hp i (List.mem_of_getElem? hi))
  | some k =>
    obtain ⟨⟨i', hi', he'⟩, hlast'⟩ := resolves_of_position? hp
    have hle := hlast k i' hi' he'
    have hge := hlast' j i hi he
    rw [Nat.le_antisymm hle hge]

theorem edge_iff (h : ∀ t ∈ targets body, ∃ j, position body t = .ok j) :
    Edge body i j ↔ Control body i j := by
  constructor
  · rintro ⟨instruction, o, hi, ho, hgoes⟩
    cases hflow : instruction.op.flow with
    | next =>
      rw [hflow] at ho
      cases ho
      rcases hgoes with hgoes | hgoes <;> cases hgoes
      exact .fall hi (.inl hflow)
    | «return» =>
      rw [hflow] at ho
      cases ho
      rcases hgoes with hgoes | hgoes <;> cases hgoes
    | jump t =>
      rw [hflow] at ho
      obtain ⟨k, hk, ho⟩ := bind_eq_ok.mp ho
      cases ho
      rcases hgoes with hgoes | hgoes <;> cases hgoes
      exact .target hi (Op.branchTarget?_eq_some.mpr (.inl hflow))
        (resolves_iff.mpr (position_eq_ok hk))
    | branch t =>
      rw [hflow] at ho
      obtain ⟨k, hk, ho⟩ := bind_eq_ok.mp ho
      cases ho
      rcases hgoes with hgoes | hgoes <;> cases hgoes
      · exact .fall hi (.inr ⟨t, hflow⟩)
      · exact .target hi (Op.branchTarget?_eq_some.mpr (.inr hflow))
          (resolves_iff.mpr (position_eq_ok hk))
  · intro hc
    cases hc with
    | fall hi hflow => exact edge_succ hi hflow h
    | target hi ht hj =>
      refine edge_of_position hi (Op.branchTarget?_eq_some.mp ht) ?_
      rw [position, resolves_iff.mp hj]

theorem exists_position_iff : (∃ j, position body t = .ok j) ↔ ∃ i ∈ body, i.offset = t := by
  cases hp : position? body t with
  | none =>
    have hnone := position?_eq_none.mp hp
    simp only [position, hp]
    exact ⟨nofun, fun ⟨i, hi, he⟩ => absurd he (hnone i hi)⟩
  | some j =>
    obtain ⟨i, hi, he⟩ := position?_eq_some hp
    simp only [position, hp]
    exact ⟨fun _ => ⟨i, List.mem_of_getElem? hi, he⟩, fun _ => ⟨j, rfl⟩⟩

theorem position_eq_bad_iff :
    position body t = .error (.badBranchTarget t) ↔ ∀ i ∈ body, i.offset ≠ t := by
  rw [← position?_eq_none]
  cases hp : position? body t <;> simp [position, hp]

end

/-- The instructions that there is code for: none on floating point, no arithmetic with checks of overflow,
and none on objects but those on fields and arrays. A conversion with a check has the code of one without. -/
def Op.hasCode : Op → Bool
  | push (.real32 _) | push (.real64 _) => false
  | ldind w | stind w | ldelem w | stelem w => w != .r4 && w != .r8
  | conv _ k => k != .r4 && k != .r8 && k != .rUn
  | nop | load _ | address _ | store _ | push _ | dup | pop | call _ | ret | br _ | brFalse _ | brTrue _
  | brIf _ _ | arith _ | neg | not | compare _ | field _ _ | staticField _ _ | initobj _ | sizeof _
  | newarr _ | ldlen | ldelema _ => true
  | _ => false

/-- An instruction without code is turned down whatever operands it finds. -/
theorem Lower.instruction_unsupported {i : Instruction} (h : i.op.hasCode = false) (site : Site)
    (s : LowerState) : instruction site i s = .error (.ofUnsupported i) := by
  obtain ⟨offset, op⟩ := i
  cases op with
  | push l =>
    cases l with
    | real32 | real64 => rfl
    | _ => cases h
  | ldind w | stind w | ldelem w | stelem w =>
    cases w with
    | r4 | r8 => rfl
    | _ => cases h
  | conv check k =>
    cases k with
    | r4 | r8 | rUn => rfl
    | _ => cases h
  | nop | load | address | store | dup | pop | call | ret | br | brFalse | brTrue | brIf | arith | neg | not
  | compare | field | staticField | initobj | sizeof | newarr | ldlen | ldelema => cases h
  | _ => rfl

namespace MethodDef

namespace Compilation

variable {M : Module} {m : MethodDef} {options : Options} {session : Session}

/-- The walk of a method that compiles covers what control can come to, and nothing else. -/
structure Explored (c : m.Compilation options session) : Prop where
  trace : ∃ n calls, Walk.Trace c.route (.ok (Walk.start m.code { session with layout := c.layout })) n
    calls (.ok c.walk) ∧ ∀ i, i ∈ calls ↔ Reachable m.code i
  visited : ∀ i, (c.visit? i).isSome = true ↔ Reachable m.code i
  edges : ∀ i j, Edge m.code i j ↔ Control m.code i j
  resolved : ∀ i ∈ m.code, ∀ t, i.op.branchTarget? = some t → ∃ j, Resolves m.code t j
  supported : ∀ i instruction, Reachable m.code i → m.code[i]? = some instruction →
    instruction.op.hasCode = true

theorem visited_iff_not_fresh (c : m.Compilation options session) (h : session.Reached M) {i : Nat}
    (hi : i < m.code.length) : (c.visit? i).isSome = true ↔ ¬ c.walk.fresh i = true := by
  have hlt : i < c.walk.stops.length := by
    rw [(c.covers_reachable h).length_eq]
    exact hi
  rw [visit?, Walk.fresh, List.getElem?_eq_getElem hlt]
  generalize c.walk.stops[i] = stop
  obtain ⟨instruction, visit⟩ := stop
  cases visit <;> simp

theorem lt_of_reachable {body : List Instruction} {i : Nat} (h : Reachable body i) :
    i < body.length := by
  cases h with
  | entry hpos => exact hpos
  | step _ _ hlt => exact hlt

theorem visited_iff_reachable (c : m.Compilation options session) (h : session.Reached M) (i : Nat) :
    (c.visit? i).isSome = true ↔ Reachable m.code i :=
  Option.isSome_iff_exists.trans ((c.joined h).visited i).symm

theorem exists_calls (c : m.Compilation options session) (h : session.Reached M) :
    ∃ n calls, Walk.Trace c.route (.ok (Walk.start m.code { session with layout := c.layout })) n calls
      (.ok c.walk) ∧ ∀ i, i ∈ calls ↔ Reachable m.code i := by
  obtain ⟨n, calls, htrace, -⟩ :=
    Walk.exists_trace c.route (Walk.start m.code { session with layout := c.layout })
  have hwalk : (Walk.start m.code { session with layout := c.layout }).run c.route = .ok c.walk :=
    c.walk_eq
  rw [hwalk] at htrace
  refine ⟨n, calls, htrace, fun i => ?_⟩
  have hfresh := htrace.fresh_iff rfl rfl i
  rw [Walk.fresh_start] at hfresh
  constructor
  · intro hi
    obtain ⟨_, hstart, hi'⟩ := htrace.fresh_of_mem hi
    cases hstart
    have hlt := (Walk.fresh_start ..).mp hi'
    have hvisited : (c.visit? i).isSome = true :=
      (c.visited_iff_not_fresh h hlt).mpr fun hf => (hfresh.mp hf).2 hi
    exact (c.visited_iff_reachable h i).mp hvisited
  · intro hreach
    have hlt := lt_of_reachable hreach
    have hvisited := (c.visited_iff_reachable h i).mpr hreach
    by_contra hnot
    exact (c.visited_iff_not_fresh h hlt).mp hvisited (hfresh.mpr ⟨hlt, hnot⟩)

theorem hasCode_of_visit (c : m.Compilation options session) (h : session.Reached M) {i : Nat}
    {instruction : Instruction} (hi : m.code[i]? = some instruction)
    (hv : (c.visit? i).isSome = true) : instruction.op.hasCode = true := by
  obtain ⟨v, hv⟩ := Option.isSome_iff_exists.mp hv
  obtain ⟨-, instruction', σ, after, hi', -, hvisit, -⟩ := (c.covers_reachable h).visit_spec hv
  cases hi.symm.trans hi'
  obtain ⟨code, hcode, -⟩ := Route.visit_ok.mp hvisit
  by_contra hno
  have hfault := Lower.instruction_unsupported (Bool.eq_false_iff.mpr hno) c.route.site
    { σ with stack := ⟨c.route.site.frame.stop, v.arrival⟩ }
  cases hfault.symm.trans hcode

theorem explored (c : m.Compilation options session) (h : session.Reached M) : c.Explored where
  trace := c.exists_calls h
  visited := c.visited_iff_reachable h
  edges _ _ := edge_iff c.target
  resolved i hi t ht := by
    obtain ⟨j, hj⟩ := c.target t (List.mem_filterMap.mpr ⟨i, hi, ht⟩)
    exact ⟨j, resolves_iff.mpr (position_eq_ok hj)⟩
  supported i _ hreach hi := c.hasCode_of_visit h hi ((c.visited_iff_reachable h i).mpr hreach)

end Compilation

/-- Once all targets are there, the walk does not miss one. -/
theorem run_ne_badBranchTarget {M : Module} {route : Route} {session : Session}
    (h : session.Reached M) (htargets : ∀ t ∈ targets route.body, ∃ j, position route.body t = .ok j)
    (t : UInt32) : (Walk.start route.body session).run route ≠ .error (.badBranchTarget t) := by
  intro hrun
  have hc : Walk.Carries route (Session.Reached M) (fun _ _ => True) :=
    fun _ _ _ _ _ _ _ _ _ hσ hvisit _ => ⟨.visit hσ hvisit, fun _ _ => trivial⟩
  obtain ⟨w, i, arriving, queue, hw, hq, hs⟩ := Walk.run_error
    (fun _ _ _ _ _ hqueue hs hw => hw.step hc hqueue hs) (Walk.coherent_start h trivial) hrun
  rcases Walk.step_error hs with ⟨_, _, -, -, hf⟩ | ⟨instruction, hnew, hv⟩ | ⟨instruction, hnew, ho⟩
  · cases hf
  · exact (Lower.instruction_effect _ _ hw.session.sound).1 _ (Route.visit_error hv) trivial
  · obtain ⟨t', hflow, hp⟩ := onward_eq_error ho
    obtain ⟨j, hj⟩ := htargets t' (mem_targets (hw.instruction_eq hnew) hflow)
    cases hj.symm.trans hp

/-- A missing target is reported for the first branch that has none, reached or not. -/
theorem compile_badBranchTarget {M : Module} {m : MethodDef} {options : Options} {session : Session}
    (hs : session.Reached M) {t : UInt32} :
    m.compile options session = .error (.badBranchTarget t) ↔
      (∃ frame layout head, (Frame.build m).run session.layout = .ok (frame, layout) ∧
        m.prologue frame = .ok head) ∧
      ∃ before instruction after, m.code = before ++ instruction :: after ∧
        instruction.op.branchTarget? = some t ∧ (∀ i ∈ m.code, i.offset ≠ t) ∧
        ∀ i ∈ before, ∀ t', i.op.branchTarget? = some t' → ∃ j ∈ m.code, j.offset = t' := by
  constructor
  · intro h
    obtain ⟨frame, layout, head, hframe, hhead, hbad | ⟨htargets, hrun⟩⟩ := compile_flow hs h trivial
    · obtain ⟨before, instruction, after, t', hsplit, ht, hp, hbefore⟩ := targets_eq_error.mp hbad
      cases (position_eq_error hp).2
      exact ⟨⟨frame, layout, head, hframe, hhead⟩, before, instruction, after, hsplit, ht,
        position_eq_bad_iff.mp hp, fun i hi t' ht' => exists_position_iff.mp (hbefore i hi t' ht')⟩
    · exact absurd hrun (run_ne_badBranchTarget (.frame hs hframe) htargets t)
  · rintro ⟨⟨frame, layout, head, hframe, hhead⟩, before, instruction, after, hsplit, ht, hnone, hbefore⟩
    have hbad : ((targets m.code).forM fun t => discard (position m.code t)) =
        .error (.badBranchTarget t) :=
      targets_eq_error.mpr ⟨before, instruction, after, t, hsplit, ht, position_eq_bad_iff.mpr hnone,
        fun i hi t' ht' => exists_position_iff.mpr (hbefore i hi t' ht')⟩
    exact bind_eq_error.mpr (.inr ⟨_, hframe, bind_eq_error.mpr (.inr ⟨_, hhead,
      bind_eq_error.mpr (.inl hbad)⟩)⟩)

theorem worklist_explores {M : Module} (m : MethodDef) (options : Options) {session : Session}
    (hs : session.Reached M) :
    (∀ (route : Route) (σ : Session), ∃ n calls,
      Walk.Trace route (.ok (Walk.start route.body σ)) n calls ((Walk.start route.body σ).run route) ∧
        n ≤ 2 * route.body.length + 1 ∧ calls.Nodup) ∧
    (∀ lines session', m.compile options session = .ok (lines, session') →
      ∃ c : m.Compilation options session, c.lines = lines ∧ c.Explored) ∧
    ∀ t, m.compile options session = .error (.badBranchTarget t) ↔
      (∃ frame layout head, (Frame.build m).run session.layout = .ok (frame, layout) ∧
        m.prologue frame = .ok head) ∧
      ∃ before instruction after, m.code = before ++ instruction :: after ∧
        instruction.op.branchTarget? = some t ∧ (∀ i ∈ m.code, i.offset ≠ t) ∧
        ∀ i ∈ before, ∀ t', i.op.branchTarget? = some t' → ∃ j ∈ m.code, j.offset = t' := by
  refine ⟨fun route σ => ?_, fun lines session' h => ?_, fun t => compile_badBranchTarget hs⟩
  · obtain ⟨n, calls, htrace, hle⟩ := Walk.exists_trace route (Walk.start route.body σ)
    rw [Walk.remaining_start] at hle
    exact ⟨n, calls, htrace, hle, htrace.nodup⟩
  · obtain ⟨c, hlines, -⟩ := compile_ok.mp h
    exact ⟨c, hlines, c.explored hs⟩

/-- A loop, and after it a branch to nowhere that is not reached. -/
def stray : MethodDef where
  name := "stray"
  params := [.primitive .int32]
  ret := .void
  body := some (number [.load (.arg 0), .brTrue 0, .ret, .br 9])

theorem worklist_explores_stray :
    stray.compile {} (.ofModule ⟨"module", []⟩) = .error (.badBranchTarget 9) ∧
    ∃ c : choose.Compilation {} (.ofModule ⟨"module", []⟩), c.Explored := by
  constructor
  · refine ((worklist_explores stray {} .start).2.2 9).mpr ⟨⟨_, _, _, rfl, rfl⟩,
      [⟨0, .load (.arg 0)⟩, ⟨1, .brTrue 0⟩, ⟨2, .ret⟩], ⟨3, .br 9⟩, [], rfl, rfl, ?_, ?_⟩
    · decide
    · simp only [List.forall_mem_cons]
      refine ⟨nofun, fun t ht => ?_, nofun, nofun⟩
      cases ht
      exact ⟨_, List.mem_cons_self, rfl⟩
  · have hok : (choose.compile {} (.ofModule ⟨"module", []⟩)).toBool = true := by decide +kernel
    obtain ⟨⟨lines, session⟩, h⟩ := exists_of_toBool hok
    obtain ⟨c, -, hc⟩ := (worklist_explores choose {} .start).2.1 lines session h
    exact ⟨c, hc⟩

end MethodDef

end CilMmix
