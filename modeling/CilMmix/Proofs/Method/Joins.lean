import CilMmix.Proofs.Method.Compilation

/-! Where paths of the control flow meet. A method compiles only if all paths to an instruction bring
operands of one shape, and it is never turned down for its shapes if they can be made to fit. -/

namespace CilMmix

/-- The fault of a join at which operand stacks differ. -/
def Fault.IsMismatch : Fault → Prop
  | .shapeMismatch _ _ _ => True
  | _ => False

theorem Fault.IsMismatch.ofFlow {fault : Fault} (h : fault.IsMismatch) : fault.OfFlow := by
  cases fault with
  | shapeMismatch => trivial
  | _ => exact h.elim

/-- The shape that an instruction leaves is given by the one it finds. -/
theorem Route.visit_shape {M : Module} {route : Route} {i : Instruction} {a b : List Element}
    {σ τ : Session} {la lb : List Line} {sa sb : LowerState} (hσ : σ.Reached M) (hτ : τ.Reached M)
    (hab : shape a = shape b) (ha : route.visit i a σ = .ok (la, sa))
    (hb : route.visit i b τ = .ok (lb, sb)) : shape sa.stack.elems = shape sb.stack.elems := by
  obtain ⟨ca, hca, -⟩ := visit_ok.mp ha
  obtain ⟨cb, hcb, -⟩ := visit_ok.mp hb
  obtain ⟨-, wa, hwa, hra⟩ := (Lower.instruction_effect _ _ hσ.sound).2 ca sa hca
  obtain ⟨-, wb, hwb, hrb⟩ := (Lower.instruction_effect _ _ hτ.sound).2 cb sb hcb
  have hw : wa = wb := by
    rw [hab] at hwa
    exact hwa.unique hwb
  rw [hra.shape_eq, hrb.shape_eq, hab, hw]

namespace Route

/-- Shapes that fit the code: the first instruction finds no operands, and each instruction takes
operands of its shape to operands of the shape that is next. -/
structure Consistent (M : Module) (route : Route) (S : Nat → Shape) : Prop where
  entry : S 0 = []
  edge : ∀ i j instruction session elems lines after, Reachable route.body i → Edge route.body i j →
    j < route.body.length → route.body[i]? = some instruction → session.Reached M →
    shape elems = S i → route.visit instruction elems session = .ok (lines, after) →
    shape after.stack.elems = S j

/-- Operands that a path from the first instruction brings to a position. -/
inductive Brings (M : Module) (route : Route) : Nat → List Element → Prop
  | entry : Brings M route 0 []
  | step {i j : Nat} {instruction : Instruction} {elems : List Element} {session : Session}
      {lines : List Line} {after : LowerState} : Brings M route i elems →
      route.body[i]? = some instruction → Edge route.body i j → session.Reached M →
      route.visit instruction elems session = .ok (lines, after) → Brings M route j after.stack.elems

/-- A property of operands that holds along every edge holds along a walk. -/
theorem carries {M : Module} {route : Route} {R : Nat → List Element → Prop}
    (hR : ∀ i j instruction session elems lines after, Edge route.body i j →
      j < route.body.length → route.body[i]? = some instruction → session.Reached M →
      R i elems → route.visit instruction elems session = .ok (lines, after) →
      R j after.stack.elems) :
    Walk.Carries route (Session.Reached M) (fun i elems => i < route.body.length → R i elems) := by
  intro i instruction elems session lines after o hbody hQ hP hvisit ho
  have hr := hQ (List.getElem?_eq_some_iff.mp hbody).1
  exact ⟨.visit hP hvisit, fun j hj hlt =>
    hR i j instruction session elems lines after ⟨instruction, o, hbody, ho, hj⟩ hlt hbody hP hr hvisit⟩

end Route

namespace MethodDef

namespace Compilation

variable {m : MethodDef} {options : Options} {session : Session}

theorem covers_reachable {M : Module} (c : m.Compilation options session) (h : session.Reached M) :
    c.Covers (Session.Reached M) fun i _ => i < m.code.length → Reachable m.code i :=
  .of_carries (Route.carries fun _ _ _ _ _ _ _ he hlt _ _ hi _ => .step hi he hlt)
    (.frame h c.frame_eq) .entry

theorem visit?_of_reachable {M : Module} (c : m.Compilation options session) (h : session.Reached M)
    {i : Nat} (hi : Reachable m.code i) : ∃ v, c.visit? i = some v := by
  induction hi with
  | entry hpos =>
    obtain ⟨v, hv, -⟩ := (c.covers_reachable h).visit?_zero hpos
    exact ⟨v, hv⟩
  | step _ he hlt ih =>
    obtain ⟨v, hv⟩ := ih
    obtain ⟨-, _, _, _, -, -, -, hnext⟩ := (c.covers_reachable h).visit_spec hv
    obtain ⟨w, hw, -⟩ := hnext _ he hlt
    exact ⟨w, hw⟩

/-- All paths to an instruction bring the shape that it was translated for. -/
theorem shape_of_brings {M : Module} (c : m.Compilation options session) (h : session.Reached M)
    {i : Nat} {elems : List Element} (hb : c.route.Brings M i elems) (hi : i < m.code.length) :
    ∃ v, c.visit? i = some v ∧ shape elems = shape v.arrival := by
  induction hb with
  | entry =>
    obtain ⟨v, hv, hs⟩ := (c.covers_reachable h).visit?_zero hi
    exact ⟨v, hv, hs.symm⟩
  | step _ hbody he hτ hvisit ih =>
    obtain ⟨v, hv, hs⟩ := ih (List.getElem?_eq_some_iff.mp hbody).1
    obtain ⟨-, instruction, σ, after, hbody', hσ, hvisit', hnext⟩ := (c.covers_reachable h).visit_spec hv
    cases hbody.symm.trans hbody'
    obtain ⟨w, hw, hsw⟩ := hnext _ he hi
    exact ⟨w, hw, by rw [hsw, Route.visit_shape hτ hσ hs hvisit hvisit']⟩

/-- An instruction is translated for operands that a path brings to it. -/
theorem brings_arrival {M : Module} (c : m.Compilation options session) (h : session.Reached M) {i : Nat}
    {v : Visit} (hv : c.visit? i = some v) : c.route.Brings M i v.arrival := by
  have hcovers : c.Covers (Session.Reached M) fun i elems => i < m.code.length →
      c.route.Brings M i elems :=
    .of_carries (Route.carries fun _ _ _ _ _ _ _ he _ hbody hσ hi hvisit => .step hi hbody he hσ hvisit)
      (.frame h c.frame_eq) fun _ => .entry
  obtain ⟨hbrings, _, _, _, hbody, -⟩ := hcovers.visit_spec hv
  exact hbrings (List.getElem?_eq_some_iff.mp hbody).1

/-- What the code of a method says about its joins. -/
structure Joined (M : Module) (c : m.Compilation options session) : Prop where
  visited : ∀ i, Reachable m.code i ↔ ∃ v, c.visit? i = some v
  entry : ∀ v, c.visit? 0 = some v → shape v.arrival = []
  edge : ∀ i j v w, Edge m.code i j → c.visit? i = some v → c.visit? j = some w →
    ∃ instruction σ after, m.code[i]? = some instruction ∧ σ.Reached M ∧
      c.route.visit instruction v.arrival σ = .ok (v.lines, after) ∧
      shape after.stack.elems = shape w.arrival
  path : ∀ i elems v, c.route.Brings M i elems → c.visit? i = some v → shape elems = shape v.arrival

theorem joined {M : Module} (c : m.Compilation options session) (h : session.Reached M) :
    c.Joined M where
  visited := by
    intro i
    refine ⟨c.visit?_of_reachable h, ?_⟩
    rintro ⟨v, hv⟩
    obtain ⟨hreach, _, _, _, hbody, -⟩ := (c.covers_reachable h).visit_spec hv
    exact hreach (List.getElem?_eq_some_iff.mp hbody).1
  entry := by
    intro v hv
    obtain ⟨-, _, _, _, hbody, -⟩ := (c.covers_reachable h).visit_spec hv
    obtain ⟨w, hw, hs⟩ := (c.covers_reachable h).visit?_zero (List.getElem?_eq_some_iff.mp hbody).1
    cases hv.symm.trans hw
    exact hs
  edge := by
    intro i j v w he hv hw
    obtain ⟨-, instruction, σ, after, hbody, hσ, hvisit, hnext⟩ := (c.covers_reachable h).visit_spec hv
    obtain ⟨-, _, _, _, hbody', -⟩ := (c.covers_reachable h).visit_spec hw
    obtain ⟨w', hw', hs⟩ := hnext j he (List.getElem?_eq_some_iff.mp hbody').1
    cases hw.symm.trans hw'
    exact ⟨instruction, σ, after, hbody, hσ, hvisit, hs.symm⟩
  path := by
    intro i elems v hb hv
    obtain ⟨-, _, _, _, hbody, -⟩ := (c.covers_reachable h).visit_spec hv
    obtain ⟨w, hw, hs⟩ := c.shape_of_brings h hb (List.getElem?_eq_some_iff.mp hbody).1
    cases hv.symm.trans hw
    exact hs

/-- Shapes that are those of the first arrivals fit the code. -/
theorem consistent {M : Module} (c : m.Compilation options session) (h : session.Reached M)
    {S : Nat → Shape} (hzero : S 0 = []) (hS : ∀ i v, c.visit? i = some v → S i = shape v.arrival) :
    c.route.Consistent M S where
  entry := hzero
  edge i j instruction σ elems lines after hreach he hlt hbody hσ hshape hvisit := by
    obtain ⟨v, hv⟩ := c.visit?_of_reachable h hreach
    obtain ⟨-, instruction', τ, after', hbody', hτ, hvisit', hnext⟩ := (c.covers_reachable h).visit_spec hv
    cases hbody.symm.trans hbody'
    obtain ⟨w, hw, hsw⟩ := hnext j he hlt
    rw [hS j w hw, hsw]
    exact Route.visit_shape hσ hτ (hshape.trans (hS i v hv)) hvisit hvisit'

end Compilation

/-- A fault of control flow comes from the check of the targets or from the walk. -/
theorem compile_flow {M : Module} {m : MethodDef} {options : Options} {session : Session}
    {fault : Fault} (hs : session.Reached M) (h : m.compile options session = .error fault)
    (hf : fault.OfFlow) : ∃ frame layout head,
      (Frame.build m).run session.layout = .ok (frame, layout) ∧ m.prologue frame = .ok head ∧
      (((targets m.code).forM fun t => discard (position m.code t)) = .error fault ∨
        (∀ t ∈ targets m.code, ∃ i, position m.code t = .ok i) ∧
        (Walk.start m.code { session with layout }).run (m.route options frame) = .error fault) := by
  rcases bind_eq_error.mp h with h | ⟨⟨frame, layout⟩, hframe, h⟩
  · exact absurd hf (Frame.build_clean hs.sound fault h)
  rcases bind_eq_error.mp h with h | ⟨head, hhead, h⟩
  · exact absurd hf ((prologue_throws m frame).clean fault h)
  rcases bind_eq_error.mp h with h | ⟨_, htargets, h⟩
  · exact ⟨frame, layout, head, hframe, hhead, .inl h⟩
  rcases bind_eq_error.mp h with h | ⟨walk, -, h⟩
  · exact ⟨frame, layout, head, hframe, hhead, .inr ⟨targets_ok.mp htargets, h⟩⟩
  · cases h

/-- A fault about shapes comes from the walk. -/
theorem compile_mismatch {M : Module} {m : MethodDef} {options : Options} {session : Session}
    {fault : Fault} (hs : session.Reached M) (h : m.compile options session = .error fault)
    (hf : fault.IsMismatch) : ∃ frame layout,
      (Frame.build m).run session.layout = .ok (frame, layout) ∧
      (Walk.start m.code { session with layout }).run (m.route options frame) = .error fault := by
  obtain ⟨frame, layout, head, hframe, -, htargets | ⟨-, hrun⟩⟩ := compile_flow hs h hf.ofFlow
  · obtain ⟨_, _, _, t, -, -, hp, -⟩ := targets_eq_error.mp htargets
    rw [(position_eq_error hp).2] at hf
    exact hf.elim
  · exact ⟨frame, layout, hframe, hrun⟩

/-- A walk along shapes that fit does not find a mismatch. -/
theorem run_not_mismatch {M : Module} {route : Route} {S : Nat → Shape} (hS : route.Consistent M S)
    {session : Session} (h : session.Reached M) {fault : Fault}
    (hrun : (Walk.start route.body session).run route = .error fault) : ¬ fault.IsMismatch := by
  have hc : Walk.Carries route (Session.Reached M) (fun i elems => i < route.body.length →
      Reachable route.body i ∧ shape elems = S i) :=
    Route.carries fun i j instruction σ elems lines after he hlt hbody hσ hi hvisit =>
      ⟨.step hi.1 he hlt, hS.edge i j instruction σ elems lines after hi.1 he hlt hbody hσ hi.2 hvisit⟩
  obtain ⟨w, i, arriving, queue, hw, hq, hs⟩ := Walk.run_error
    (fun _ _ _ _ _ hqueue hs hw => hw.step hc hqueue hs)
    (Walk.coherent_start h fun hpos => ⟨.entry hpos, hS.entry.symm⟩) hrun
  rcases Walk.step_error hs with ⟨instruction, first, hfirst, hne, -⟩ | ⟨instruction, hnew, hv⟩ |
      ⟨instruction, -, ho⟩
  · have hlt := (List.getElem?_eq_some_iff.mp (hw.instruction_eq hfirst)).1
    have hone := ((hw.visited i instruction first hfirst).1 hlt).2
    have htwo := (hw.queued i arriving (by rw [hq]; exact List.mem_cons_self) hlt).2
    exact absurd (hone.trans htwo.symm) hne
  · intro hf
    exact (Lower.instruction_effect _ _ hw.session.sound).1 fault (Route.visit_error hv) hf.ofFlow
  · obtain ⟨t, -, hp⟩ := onward_eq_error ho
    rw [(position_eq_error hp).2]
    exact id

/-- The join check turns down a method exactly for shapes that do not fit. -/
theorem join_check_sound_complete {M : Module} (m : MethodDef) (options : Options)
    {session : Session} (hs : session.Reached M) :
    (∀ lines session', m.compile options session = .ok (lines, session') →
      ∃ c : m.Compilation options session, c.lines = lines ∧ c.Joined M) ∧
    ((∀ frame layout, (Frame.build m).run session.layout = .ok (frame, layout) →
        ∃ S, (m.route options frame).Consistent M S) →
      ∀ offset expected actual,
        m.compile options session ≠ .error (.shapeMismatch offset expected actual)) := by
  constructor
  · intro lines session' h
    obtain ⟨c, hlines, -⟩ := compile_ok.mp h
    exact ⟨c, hlines, c.joined hs⟩
  · intro hS offset expected actual h
    obtain ⟨frame, layout, hframe, hrun⟩ := compile_mismatch hs h trivial
    obtain ⟨S, hS⟩ := hS frame layout hframe
    exact run_not_mismatch hS (.frame hs hframe) hrun trivial

/-- A method whose last instruction is reached with one number or another. -/
def choose : MethodDef where
  name := "choose"
  params := [.primitive .int32]
  ret := .primitive .int32
  body := some (number [.load (.arg 0), .brTrue 4, .push (.int32 1), .br 5, .push (.int32 2), .ret])

/-- After each number there is one operand, in the register after the result and the argument. -/
def chooseShapes (i : Nat) : Shape := if i = 1 ∨ i = 3 ∨ i = 5 then [(2, 1)] else []

theorem join_check_choose :
    (∃ c : choose.Compilation {} (.ofModule ⟨"module", []⟩), c.Joined ⟨"module", []⟩ ∧
      c.route.Consistent ⟨"module", []⟩ chooseShapes) ∧
    ∀ offset expected actual, choose.compile {} (.ofModule ⟨"module", []⟩) ≠
      .error (.shapeMismatch offset expected actual) := by
  have hok : (choose.compile {} (.ofModule ⟨"module", []⟩)).toBool = true := by decide +kernel
  obtain ⟨⟨lines, session'⟩, h⟩ := exists_of_toBool hok
  obtain ⟨c, -, hc⟩ := (join_check_sound_complete choose {} .start).1 lines session' h
  have hshapes : (c.walk.stops.map fun s => s.visit.map fun v => shape v.arrival) =
      (List.range 6).map fun i => some (chooseShapes i) :=
    c.parts_eq (fun _ walk => walk.stops.map fun s => s.visit.map fun v => shape v.arrival)
      (by decide +kernel)
  have hconsistent : c.route.Consistent ⟨"module", []⟩ chooseShapes := by
    refine c.consistent .start rfl fun i v hv => ?_
    obtain ⟨instruction, hs⟩ := Compilation.visit?_eq_some.mp hv
    have hat := congrArg (fun l => l[i]?) hshapes
    simp only [List.getElem?_map, hs, Option.map_some] at hat
    obtain ⟨k, hk, hat⟩ := Option.map_eq_some_iff.mp hat.symm
    obtain ⟨hlt, rfl⟩ := List.getElem?_eq_some_iff.mp hk
    rw [List.getElem_range] at hat
    exact Option.some.inj hat
  refine ⟨⟨c, hc, hconsistent⟩, ?_⟩
  refine (join_check_sound_complete choose {} .start).2 fun frame layout hframe => ⟨chooseShapes, ?_⟩
  cases c.frame_eq.symm.trans hframe
  exact hconsistent

end MethodDef

end CilMmix
