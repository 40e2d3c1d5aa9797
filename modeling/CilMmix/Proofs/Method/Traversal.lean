import CilMmix.Method.Walk
import CilMmix.Proofs.Outcome
import CilMmix.Proofs.Window.Shape

/-! What a walk through a method body keeps. Every position that an instruction leads to is either past
the end, or was reached with operands of the same shape, or still waits in the queue. -/

namespace CilMmix

/-- The positions that follow an instruction. -/
def Onward.Goes (o : Onward) (j : Nat) : Prop := o.ahead = some j ∨ o.aside = some j

/-- Control can pass from position `i` to position `j`, which may be past the end. -/
def Edge (body : List Instruction) (i j : Nat) : Prop :=
  ∃ instruction o, body[i]? = some instruction ∧ onward body i instruction.op.flow = .ok o ∧ o.Goes j

/-- Positions that control can come to from the start of the body. -/
inductive Reachable (body : List Instruction) : Nat → Prop
  | entry : 0 < body.length → Reachable body 0
  | step {i j : Nat} : Reachable body i → Edge body i j → j < body.length → Reachable body j

theorem position?_eq_some {body : List Instruction} {t : UInt32} {j : Nat}
    (h : position? body t = some j) : ∃ i, body[j]? = some i ∧ i.offset = t := by
  simp only [position?, List.findRev?_eq_find?_reverse, Option.map_eq_some_iff] at h
  obtain ⟨⟨i, k⟩, hfind, rfl⟩ := h
  have hmem := List.mem_reverse.mp (List.mem_of_find?_eq_some hfind)
  exact ⟨i, List.mem_zipIdx_iff_getElem?.mp hmem, by simpa using List.find?_some hfind⟩

theorem Op.branchTarget?_eq_some {op : Op} {t : UInt32} :
    op.branchTarget? = some t ↔ op.flow = .jump t ∨ op.flow = .branch t := by
  unfold branchTarget?
  cases op.flow <;> simp

section

variable {body : List Instruction} {i j : Nat} {instruction : Instruction} {t : UInt32}

theorem mem_targets (hi : body[i]? = some instruction)
    (h : instruction.op.flow = .jump t ∨ instruction.op.flow = .branch t) : t ∈ targets body :=
  List.mem_filterMap.mpr ⟨instruction, List.mem_of_getElem? hi, Op.branchTarget?_eq_some.mpr h⟩

theorem edge_of_position (hi : body[i]? = some instruction)
    (h : instruction.op.flow = .jump t ∨ instruction.op.flow = .branch t)
    (hj : position body t = .ok j) : Edge body i j := by
  rcases h with h | h
  · exact ⟨instruction, _, hi, by rw [h, onward, hj]; rfl, .inl rfl⟩
  · exact ⟨instruction, _, hi, by rw [h, onward, hj]; rfl, .inr rfl⟩

theorem edge_succ (hi : body[i]? = some instruction)
    (h : instruction.op.flow = .next ∨ ∃ t, instruction.op.flow = .branch t)
    (htargets : ∀ t ∈ targets body, ∃ j, position body t = .ok j) : Edge body i (i + 1) := by
  rcases h with h | ⟨t, h⟩
  · exact ⟨instruction, _, hi, by rw [h, onward], .inl rfl⟩
  · obtain ⟨j, hj⟩ := htargets t (mem_targets hi (.inr h))
    exact ⟨instruction, _, hi, by rw [h, onward, hj]; rfl, .inl rfl⟩

theorem position_eq_ok (h : position body t = .ok j) : position? body t = some j := by
  unfold position at h
  split at h
  · cases h
    assumption
  · cases h

theorem position_eq_error {fault : Fault} (h : position body t = .error fault) :
    position? body t = none ∧ fault = .badBranchTarget t := by
  unfold position at h
  split at h
  · cases h
  · cases h
    exact ⟨‹_›, rfl⟩

theorem onward_eq_error {flow : Flow} {fault : Fault} (h : onward body i flow = .error fault) :
    ∃ t, (flow = .jump t ∨ flow = .branch t) ∧ position body t = .error fault := by
  cases flow with
  | next | «return» => cases h
  | jump t =>
    rcases bind_eq_error.mp h with h | ⟨_, _, h⟩
    · exact ⟨t, .inl rfl, h⟩
    · cases h
  | branch t =>
    rcases bind_eq_error.mp h with h | ⟨_, _, h⟩
    · exact ⟨t, .inr rfl, h⟩
    · cases h

end

namespace Walk

section

variable {route : Route} {w : Walk} {i : Nat} {arriving : List Element}
  {queue : List (Nat × List Element)}

theorem step_of_none (h : w.stops[i]? = none) :
    w.step route i arriving queue = .ok { w with queue } := by
  rw [step, h]
  dsimp only
  rw [pass, h]

theorem step_of_visited {instruction : Instruction} {first : Visit}
    (h : w.stops[i]? = some ⟨instruction, some first⟩) : w.step route i arriving queue =
      if sameShape first.arrival arriving then .ok { w with queue }
      else .error (.shapeMismatch instruction.offset (describe first.arrival) (describe arriving)) := by
  rw [step, h]
  dsimp only
  rw [pass, h]

theorem step_of_fresh {instruction : Instruction} (h : w.stops[i]? = some ⟨instruction, none⟩) :
    w.step route i arriving queue = (route.visit instruction arriving w.session >>=
      w.record route.body i instruction arriving queue) := by
  rw [step, h]

theorem step_eq_pass (h : ∀ instruction, w.stops[i]? ≠ some ⟨instruction, none⟩) :
    w.step route i arriving queue = w.pass i arriving queue := by
  unfold step
  split
  · rename_i instruction hs
    exact absurd hs (h instruction)
  · rfl

end

/-- The three things that an arrival can come to. -/
theorem step_ok {route : Route} {w w' : Walk} {i : Nat} {arriving : List Element}
    {queue : List (Nat × List Element)} (h : w.step route i arriving queue = .ok w') :
    (w.stops[i]? = none ∧ w' = { w with queue }) ∨
    (∃ instruction first, w.stops[i]? = some ⟨instruction, some first⟩ ∧
      shape first.arrival = shape arriving ∧ w' = { w with queue }) ∨
    ∃ instruction lines after o, w.stops[i]? = some ⟨instruction, none⟩ ∧
      route.visit instruction arriving w.session = .ok (lines, after) ∧
      onward route.body i instruction.op.flow = .ok o ∧
      w' = { queue := o.ahead.toList.map (·, after.stack.elems) ++ queue ++
               o.aside.toList.map (·, after.stack.elems)
             stops := w.stops.set i ⟨instruction, some ⟨arriving, lines⟩⟩
             session := after.toSession } := by
  cases hs : w.stops[i]? with
  | none =>
    rw [step_of_none hs] at h
    cases h
    exact .inl ⟨rfl, rfl⟩
  | some s =>
    obtain ⟨instruction, _ | first⟩ := s
    · rw [step_of_fresh hs] at h
      obtain ⟨⟨lines, after⟩, hv, h⟩ := bind_eq_ok.mp h
      obtain ⟨o, ho, h⟩ := bind_eq_ok.mp h
      cases h
      exact .inr (.inr ⟨instruction, lines, after, o, rfl, hv, ho, rfl⟩)
    · rw [step_of_visited hs] at h
      split at h
      · rename_i hsame
        cases h
        exact .inr (.inl ⟨instruction, first, rfl, sameShape_iff.mp hsame, rfl⟩)
      · cases h

theorem step_error {route : Route} {w : Walk} {i : Nat} {arriving : List Element}
    {queue : List (Nat × List Element)} {fault : Fault}
    (h : w.step route i arriving queue = .error fault) :
    (∃ instruction first, w.stops[i]? = some ⟨instruction, some first⟩ ∧
      shape first.arrival ≠ shape arriving ∧ fault =
        .shapeMismatch instruction.offset (describe first.arrival) (describe arriving)) ∨
    (∃ instruction, w.stops[i]? = some ⟨instruction, none⟩ ∧
      route.visit instruction arriving w.session = .error fault) ∨
    ∃ instruction, w.stops[i]? = some ⟨instruction, none⟩ ∧
      onward route.body i instruction.op.flow = .error fault := by
  cases hs : w.stops[i]? with
  | none =>
    rw [step_of_none hs] at h
    cases h
  | some s =>
    obtain ⟨instruction, _ | first⟩ := s
    · rw [step_of_fresh hs] at h
      rcases bind_eq_error.mp h with h | ⟨⟨lines, after⟩, -, h⟩
      · exact .inr (.inl ⟨instruction, rfl, h⟩)
      · rcases bind_eq_error.mp h with h | ⟨o, -, h⟩
        · exact .inr (.inr ⟨instruction, rfl, h⟩)
        · cases h
    · rw [step_of_visited hs] at h
      split at h
      · cases h
      · rename_i hsame
        cases h
        exact .inl ⟨instruction, first, rfl, fun he => hsame (sameShape_iff.mpr he), rfl⟩

/-- What each step keeps, a whole walk keeps. -/
theorem run_ok {route : Route} {P : Walk → Prop}
    (hstep : ∀ w i arriving queue w', w.queue = (i, arriving) :: queue →
      w.step route i arriving queue = .ok w' → P w → P w')
    {w w' : Walk} (hw : P w) (h : w.run route = .ok w') : P w' ∧ w'.queue = [] := by
  induction hn : w.remaining using Nat.strongRecOn generalizing w with
  | ind n ih =>
    rw [run] at h
    split at h
    · rename_i hq
      cases h
      exact ⟨hw, hq⟩
    · rename_i i arriving queue hq
      split at h
      · cases h
      · rename_i v hs
        exact ih v.remaining (hn ▸ remaining_step hq hs) (hstep w i arriving queue v hq hs hw) h rfl

/-- A walk that fails does so in a step. -/
theorem run_error {route : Route} {P : Walk → Prop}
    (hstep : ∀ w i arriving queue w', w.queue = (i, arriving) :: queue →
      w.step route i arriving queue = .ok w' → P w → P w')
    {w : Walk} {fault : Fault} (hw : P w) (h : w.run route = .error fault) :
    ∃ v i arriving queue, P v ∧ v.queue = (i, arriving) :: queue ∧
      v.step route i arriving queue = .error fault := by
  induction hn : w.remaining using Nat.strongRecOn generalizing w with
  | ind n ih =>
    rw [run] at h
    split at h
    · cases h
    · rename_i i arriving queue hq
      split at h
      · rename_i hs
        cases h
        exact ⟨w, i, arriving, queue, hw, hq, hs⟩
      · rename_i v hs
        exact ih v.remaining (hn ▸ remaining_step hq hs) (hstep w i arriving queue v hq hs hw) h rfl

/-- A position is dealt with, or will be, for operands of a shape. -/
def Covered (w : Walk) (j : Nat) (sh : Shape) : Prop :=
  w.stops.length ≤ j ∨ (∃ instruction v, w.stops[j]? = some ⟨instruction, some v⟩ ∧
    shape v.arrival = sh) ∨ ∃ elems, (j, elems) ∈ w.queue ∧ shape elems = sh

/-- The invariant of a walk: sessions satisfy `P`, and the operands brought to position `i` satisfy
`Q i`. -/
structure Coherent (route : Route) (P : Session → Prop) (Q : Nat → List Element → Prop) (w : Walk) :
    Prop where
  body : w.stops.map Stop.instruction = route.body
  session : P w.session
  queued : ∀ j elems, (j, elems) ∈ w.queue → Q j elems
  entry : w.Covered 0 []
  visited : ∀ i instruction v, w.stops[i]? = some ⟨instruction, some v⟩ → Q i v.arrival ∧
    ∃ session after o, P session ∧
      route.visit instruction v.arrival session = .ok (v.lines, after) ∧
      onward route.body i instruction.op.flow = .ok o ∧
      ∀ j, o.Goes j → w.Covered j (shape after.stack.elems)

/-- Every visit takes what it finds to what it leaves. -/
def Carries (route : Route) (P : Session → Prop) (Q : Nat → List Element → Prop) : Prop :=
  ∀ i instruction elems session lines after o, route.body[i]? = some instruction → Q i elems →
    P session → route.visit instruction elems session = .ok (lines, after) →
    onward route.body i instruction.op.flow = .ok o →
    P after.toSession ∧ ∀ j, o.Goes j → Q j after.stack.elems

theorem Coherent.instruction_eq {route : Route} {P : Session → Prop} {Q : Nat → List Element → Prop}
    {w : Walk} (h : w.Coherent route P Q) {i : Nat} {s : Stop} (hs : w.stops[i]? = some s) :
    route.body[i]? = some s.instruction := by
  rw [← h.body, List.getElem?_map, hs]
  rfl

theorem Coherent.length_eq {route : Route} {P : Session → Prop} {Q : Nat → List Element → Prop}
    {w : Walk} (h : w.Coherent route P Q) : w.stops.length = route.body.length := by
  rw [← h.body, List.length_map]

theorem coherent_start {route : Route} {P : Session → Prop} {Q : Nat → List Element → Prop}
    {session : Session} (hp : P session) (hq : Q 0 []) :
    (start route.body session).Coherent route P Q where
  body := by simp [start, Function.comp_def]
  session := hp
  queued := by
    intro j elems h
    simp only [start, List.mem_singleton, Prod.mk.injEq] at h
    obtain ⟨rfl, rfl⟩ := h
    exact hq
  entry := .inr (.inr ⟨[], by simp [start], rfl⟩)
  visited := by
    intro i instruction v h
    simp [start] at h

/-- A position that was taken from the queue stays covered once it is visited with that shape. -/
theorem Covered.dequeue {w w' : Walk} {i j : Nat} {arriving : List Element} {sh : Shape}
    {queue : List (Nat × List Element)} (h : w.Covered j sh) (hq : w.queue = (i, arriving) :: queue)
    (hlen : w'.stops.length = w.stops.length)
    (hkeep : ∀ (k : Nat) instruction (v : Visit), w.stops[k]? = some (Stop.mk instruction (some v)) →
      w'.stops[k]? = some (Stop.mk instruction (some v)))
    (hqueue : ∀ p ∈ queue, p ∈ w'.queue) (hi : w'.Covered i (shape arriving)) : w'.Covered j sh := by
  rcases h with h | ⟨instruction, v, hv, hs⟩ | ⟨elems, hmem, hs⟩
  · exact .inl (hlen ▸ h)
  · exact .inr (.inl ⟨instruction, v, hkeep _ _ _ hv, hs⟩)
  · rw [hq] at hmem
    rcases List.mem_cons.mp hmem with he | hmem
    · cases he
      exact hs ▸ hi
    · exact .inr (.inr ⟨elems, hqueue _ hmem, hs⟩)

theorem Coherent.dequeue {route : Route} {P : Session → Prop} {Q : Nat → List Element → Prop}
    {w : Walk} {i : Nat} {arriving : List Element} {queue : List (Nat × List Element)}
    (h : w.Coherent route P Q) (hq : w.queue = (i, arriving) :: queue)
    (hi : Covered { w with queue } i (shape arriving)) : Coherent route P Q { w with queue } := by
  have hcover : ∀ j sh, w.Covered j sh → Covered { w with queue } j sh := fun j sh hj =>
    hj.dequeue hq rfl (fun _ _ _ hv => hv) (fun _ hp => hp) hi
  refine ⟨h.body, h.session, fun j elems hj => ?_, hcover _ _ h.entry, fun j instruction v hv => ?_⟩
  · exact h.queued j elems (by rw [hq]; exact List.mem_cons_of_mem _ hj)
  · obtain ⟨hQ, session, after, o, hP, hvisit, ho, hgoes⟩ := h.visited j instruction v hv
    exact ⟨hQ, session, after, o, hP, hvisit, ho, fun k hk => hcover _ _ (hgoes k hk)⟩

theorem mem_bring {o : Onward} {queue : List (Nat × List Element)} {j : Nat}
    {left elems : List Element} :
    (j, elems) ∈ o.ahead.toList.map (·, left) ++ queue ++ o.aside.toList.map (·, left) ↔
      (o.Goes j ∧ elems = left) ∨ (j, elems) ∈ queue := by
  simp only [List.mem_append, List.mem_map, Option.mem_toList, Prod.mk.injEq,
    Onward.Goes]
  constructor
  · rintro ((⟨k, hk, rfl, rfl⟩ | h) | ⟨k, hk, rfl, rfl⟩)
    · exact .inl ⟨.inl hk, rfl⟩
    · exact .inr h
    · exact .inl ⟨.inr hk, rfl⟩
  · rintro (⟨hk | hk, rfl⟩ | h)
    · exact .inl (.inl ⟨j, hk, rfl, rfl⟩)
    · exact .inr ⟨j, hk, rfl, rfl⟩
    · exact .inl (.inr h)

theorem Coherent.step {route : Route} {P : Session → Prop} {Q : Nat → List Element → Prop}
    (hc : Carries route P Q) {w w' : Walk} {i : Nat} {arriving : List Element}
    {queue : List (Nat × List Element)} (hq : w.queue = (i, arriving) :: queue)
    (hs : w.step route i arriving queue = .ok w') (h : w.Coherent route P Q) :
    w'.Coherent route P Q := by
  rcases step_ok hs with ⟨hnone, rfl⟩ | ⟨instruction, first, hfirst, hsame, rfl⟩ |
      ⟨instruction, lines, after, o, hnew, hvisit, ho, rfl⟩
  · exact h.dequeue hq (.inl (List.getElem?_eq_none_iff.mp hnone))
  · exact h.dequeue hq (.inr (.inl ⟨instruction, first, hfirst, hsame⟩))
  · have hlt := (List.getElem?_eq_some_iff.mp hnew).1
    have hQ : Q i arriving := h.queued i arriving (by rw [hq]; exact List.mem_cons_self)
    have hbody := h.instruction_eq hnew
    obtain ⟨hP, hgo⟩ := hc i instruction arriving w.session lines after o hbody hQ h.session hvisit ho
    -- The position is new, so what was visited before is still there.
    have hcover : ∀ j sh, w.Covered j sh → Covered
        { queue := o.ahead.toList.map (·, after.stack.elems) ++ queue ++
            o.aside.toList.map (·, after.stack.elems)
          stops := w.stops.set i ⟨instruction, some ⟨arriving, lines⟩⟩
          session := after.toSession } j sh := by
      intro j sh hj
      refine hj.dequeue hq (List.length_set ..) (fun k instruction' v hv => ?_)
        (fun p hp => by simp [hp]) (.inr (.inl ⟨instruction, ⟨arriving, lines⟩, by simp [hlt], rfl⟩))
      have hne : i ≠ k := by
        rintro rfl
        rw [hnew] at hv
        cases hv
      rw [List.getElem?_set_ne hne, hv]
    refine ⟨?_, hP, fun j elems hj => ?_, hcover _ _ h.entry, fun j instruction' v hv => ?_⟩
    · rw [List.map_set, ← h.body]
      exact List.set_getElem_self (by simpa using hlt) ▸ by simp [(List.getElem?_eq_some_iff.mp hnew).2]
    · rcases mem_bring.mp hj with ⟨hgoes, rfl⟩ | hmem
      · exact hgo j hgoes
      · exact h.queued j elems (by rw [hq]; exact List.mem_cons_of_mem _ hmem)
    · by_cases hij : i = j
      · subst hij
        simp only [List.getElem?_set_self hlt, Option.some.injEq, Stop.mk.injEq] at hv
        obtain ⟨rfl, rfl⟩ := hv
        exact ⟨hQ, w.session, after, o, h.session, hvisit, ho, fun k hk =>
          .inr (.inr ⟨after.stack.elems, mem_bring.mpr (.inl ⟨hk, rfl⟩), rfl⟩)⟩
      · rw [List.getElem?_set_ne hij] at hv
        obtain ⟨hQv, session, after', o', hPs, hvisit', ho', hgoes⟩ := h.visited j instruction' v hv
        exact ⟨hQv, session, after', o', hPs, hvisit', ho', fun k hk => hcover _ _ (hgoes k hk)⟩

/-- A walk that comes to its end has brought every shape to where it leads. -/
theorem Coherent.run {route : Route} {P : Session → Prop} {Q : Nat → List Element → Prop}
    (hc : Carries route P Q) {session : Session} (hp : P session) (hq : Q 0 []) {w : Walk}
    (h : (start route.body session).run route = .ok w) : w.Coherent route P Q ∧ w.queue = [] :=
  run_ok (fun _ _ _ _ _ hqueue hs hw => hw.step hc hqueue hs) (coherent_start hp hq) h

end Walk

end CilMmix
