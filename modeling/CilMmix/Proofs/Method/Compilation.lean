import CilMmix.Program
import CilMmix.Proofs.Lowering.Effect
import CilMmix.Proofs.Method.Traversal
import CilMmix.Proofs.Window.Placement

/-! A method together with the parts of its code, and the sessions in which methods are compiled. -/

namespace CilMmix

theorem Route.visit_ok {route : Route} {i : Instruction} {arriving : List Element} {session : Session}
    {lines : List Line} {after : LowerState} :
    route.visit i arriving session = .ok (lines, after) ↔
      ∃ code, Lower.instruction route.site i
          { session with stack := ⟨route.site.frame.stop, arriving⟩ } = .ok (code, after) ∧
        lines = piece route.annotate (route.label? i.offset) i code := by
  simp only [visit, StateT.run, Lower.piece, bind_ok, pure_ok]
  constructor
  · rintro ⟨code, t, h, rfl, rfl⟩
    exact ⟨code, h, rfl⟩
  · rintro ⟨code, h, rfl⟩
    exact ⟨code, after, h, rfl, rfl⟩

theorem Route.visit_error {route : Route} {i : Instruction} {arriving : List Element}
    {session : Session} {fault : Fault} (h : route.visit i arriving session = .error fault) :
    Lower.instruction route.site i { session with stack := ⟨route.site.frame.stop, arriving⟩ } =
      .error fault := by
  simp only [visit, StateT.run, Lower.piece] at h
  rcases bind_eq_error.mp h with h | ⟨_, _, h⟩
  · exact h
  · cases h

/-- The sessions that the methods of a module are compiled in: the first one, and what is left after
a frame is laid out or an instruction gets its code. -/
inductive Session.Reached (M : Module) : Session → Prop
  | start : Reached M (.ofModule M)
  | frame {session : Session} {m : MethodDef} {f : Frame} {layout : Layout} : Reached M session →
      (Frame.build m).run session.layout = .ok (f, layout) → Reached M { session with layout }
  | visit {session : Session} {route : Route} {i : Instruction} {arriving : List Element}
      {lines : List Line} {after : LowerState} : Reached M session →
      route.visit i arriving session = .ok (lines, after) → Reached M after.toSession

theorem Session.Reached.sound {M : Module} {session : Session} (h : session.Reached M) :
    session.layout.Sound M.types := by
  induction h with
  | start => exact Layout.sound_ofModule M
  | frame _ hf ih => exact ((Frame.build_ok hf).2 M.types ih).1
  | visit _ hv ih =>
    obtain ⟨code, hcode, -⟩ := Route.visit_ok.mp hv
    exact ((Lower.instruction_effect _ _ ih).2 code _ hcode).1

namespace MethodDef

def route (m : MethodDef) (options : Options) (frame : Frame) : Route :=
  ⟨m.site options frame, options.annotate, m.code⟩

/-- The frame of a method and the walk over its body. -/
def parts (m : MethodDef) (options : Options) (session : Session) : Except Fault (Frame × Walk) := do
  let (frame, layout) ← (Frame.build m).run session.layout
  let walk ← (Walk.start m.code { session with layout }).run (m.route options frame)
  .ok (frame, walk)

/-- A method that compiles, with the parts that its code is put together from. -/
structure Compilation (m : MethodDef) (options : Options) (session : Session) where
  frame : Frame
  layout : Layout
  head : List Line
  walk : Walk
  frame_eq : (Frame.build m).run session.layout = .ok (frame, layout)
  head_eq : m.prologue frame = .ok head
  target : ∀ t ∈ targets m.code, ∃ i, position m.code t = .ok i
  walk_eq : (Walk.start m.code { session with layout }).run (m.route options frame) = .ok walk

namespace Compilation

variable {m : MethodDef} {options : Options} {session : Session}

def lines (c : m.Compilation options session) : List Line := c.head ++ c.walk.lines ++ [.blank]

def route (c : m.Compilation options session) : Route := m.route options c.frame

/-- How an instruction was translated, if it was reached. -/
def visit? (c : m.Compilation options session) (i : Nat) : Option Visit :=
  c.walk.stops[i]?.bind Stop.visit

theorem laid (c : m.Compilation options session) : c.frame.Laid m := (Frame.build_ok c.frame_eq).1

theorem sized {M : Module} (c : m.Compilation options session) (h : session.Reached M) :
    c.frame.Sized M.types :=
  ((Frame.build_ok c.frame_eq).2 M.types h.sound).2

/-- What the frame and the walk say can be computed. -/
theorem parts_eq {α : Type} (c : m.Compilation options session) (f : Frame → Walk → α) {a : α}
    (h : (m.parts options session).toOption.map (fun p => f p.1 p.2) = some a) :
    f c.frame c.walk = a := by
  simp only [parts, c.frame_eq, c.walk_eq, bind, Except.bind] at h
  exact Option.some.inj h

theorem visit?_eq_some {c : m.Compilation options session} {i : Nat} {v : Visit} :
    c.visit? i = some v ↔ ∃ instruction, c.walk.stops[i]? = some ⟨instruction, some v⟩ := by
  unfold visit?
  cases c.walk.stops[i]? with
  | none => simp
  | some s =>
    obtain ⟨instruction, visit⟩ := s
    simp

/-- The walk kept its invariant to the end, when every arrival was dealt with. -/
def Covers (c : m.Compilation options session) (P : Session → Prop)
    (Q : Nat → List Element → Prop) : Prop :=
  c.walk.Coherent c.route P Q ∧ c.walk.queue = []

namespace Covers

variable {c : m.Compilation options session} {P : Session → Prop} {Q : Nat → List Element → Prop}

theorem of_carries (hc : Walk.Carries c.route P Q) (hp : P { session with layout := c.layout })
    (hq : Q 0 []) : c.Covers P Q :=
  Walk.Coherent.run hc hp hq c.walk_eq

theorem length_eq (h : c.Covers P Q) : c.walk.stops.length = m.code.length := h.1.length_eq

/-- A position that the walk covered is past the end or was visited with that shape. -/
theorem visit_of_covered (h : c.Covers P Q) {j : Nat} {sh : Shape} (hc : c.walk.Covered j sh)
    (hj : j < m.code.length) : ∃ v, c.visit? j = some v ∧ shape v.arrival = sh := by
  have hlen := h.length_eq
  rcases hc with hge | ⟨instruction, v, hv, hs⟩ | ⟨elems, hmem, -⟩
  · omega
  · exact ⟨v, visit?_eq_some.mpr ⟨instruction, hv⟩, hs⟩
  · simp [h.2] at hmem

/-- The translation of an instruction that was visited, and the visits that it leads to. -/
theorem visit_spec (h : c.Covers P Q) {i : Nat} {v : Visit} (hv : c.visit? i = some v) :
    Q i v.arrival ∧ ∃ instruction σ after, m.code[i]? = some instruction ∧ P σ ∧
      c.route.visit instruction v.arrival σ = .ok (v.lines, after) ∧
      ∀ j, Edge m.code i j → j < m.code.length →
        ∃ w, c.visit? j = some w ∧ shape w.arrival = shape after.stack.elems := by
  obtain ⟨instruction, hs⟩ := visit?_eq_some.mp hv
  have hbody : m.code[i]? = some instruction := h.1.instruction_eq hs
  obtain ⟨hQ, σ, after, o, hσ, hvisit, ho, hgoes⟩ := h.1.visited i instruction v hs
  refine ⟨hQ, instruction, σ, after, hbody, hσ, hvisit, ?_⟩
  rintro j ⟨instruction', o', hbody', ho', hj⟩ hlt
  cases hbody.symm.trans hbody'
  cases ho.symm.trans ho'
  exact h.visit_of_covered (hgoes j hj) hlt

theorem visit?_zero (h : c.Covers P Q) (hpos : 0 < m.code.length) :
    ∃ v, c.visit? 0 = some v ∧ shape v.arrival = [] :=
  h.visit_of_covered h.1.entry hpos

end Covers

/-- The operands that an instruction finds lie one above the other, from the end of the frame on. -/
theorem covers_stacked {M : Module} (c : m.Compilation options session) (h : session.Reached M) :
    c.Covers (Session.Reached M) fun _ elems => Shape.Stacked c.frame.stop (shape elems) := by
  refine .of_carries (fun i instruction elems σ lines after o _ hs hσ hvisit _ => ?_)
    (.frame h c.frame_eq) trivial
  obtain ⟨code, hcode, -⟩ := Route.visit_ok.mp hvisit
  obtain ⟨-, words, -, hr⟩ := (Lower.instruction_effect _ _ hσ.sound).2 code after hcode
  have hbase : after.stack.base = c.frame.stop := hr.base_eq
  exact ⟨.visit hσ hvisit, fun _ _ => hbase ▸ hr.stacked hs⟩

end Compilation

theorem targets_ok {m : MethodDef} {u : Unit} :
    ((targets m.code).forM fun t => discard (position m.code t)) = .ok u ↔
      ∀ t ∈ targets m.code, ∃ i, position m.code t = .ok i := by
  simp only [forM_eq_ok, discard_eq_ok]

/-- The check of the targets stops at the first branch without one. -/
theorem targets_eq_error {body code : List Instruction} {fault : Fault} :
    ((targets code).forM fun t => discard (position body t)) = .error fault ↔
      ∃ before instruction after t, code = before ++ instruction :: after ∧
        instruction.op.branchTarget? = some t ∧ position body t = .error fault ∧
        ∀ i ∈ before, ∀ t', i.op.branchTarget? = some t' → ∃ j, position body t' = .ok j := by
  simp only [forM_eq_error, discard_eq_ok, discard_eq_error]
  constructor
  · rintro ⟨good, t, rest, hsplit, hbad, hgood⟩
    obtain ⟨before, later, rfl, rfl, hlater⟩ := List.filterMap_eq_append_iff.mp hsplit
    -- Between the last good branch and the bad one there are only instructions that are no branches.
    obtain ⟨plain, instruction, after, rfl, hplain, ht, -⟩ := List.filterMap_eq_cons_iff.mp hlater
    refine ⟨before ++ plain, instruction, after, t, (List.append_assoc ..).symm, ht, hbad, ?_⟩
    intro i hi t' ht'
    rcases List.mem_append.mp hi with hi | hi
    · exact hgood t' (List.mem_filterMap.mpr ⟨i, hi, ht'⟩)
    · cases (hplain i hi).symm.trans ht'
  · rintro ⟨before, instruction, after, t, rfl, ht, hbad, hbefore⟩
    refine ⟨targets before, t, targets after, ?_, hbad, fun t' hmem => ?_⟩
    · exact List.filterMap_append.trans (congrArg _ (List.filterMap_cons_some ht))
    · obtain ⟨i, hi, ht'⟩ := List.mem_filterMap.mp hmem
      exact hbefore i hi t' ht'

theorem prologue_throws (m : MethodDef) (f : Frame) : Throws Fault.OfWindow (m.prologue f) :=
  f.backupReg_throws.bind fun _ => (copyWords_throws _ _ _).bind fun _ => .pure _

theorem compile_ok {m : MethodDef} {options : Options} {session session' : Session}
    {lines : List Line} : m.compile options session = .ok (lines, session') ↔
      ∃ c : m.Compilation options session, c.lines = lines ∧ c.walk.session = session' := by
  simp only [compile, bind_eq_ok, pure_eq_ok, Prod.mk.injEq, targets_ok]
  constructor
  · rintro ⟨⟨frame, layout⟩, hframe, head, hhead, -, ht, walk, hwalk, rfl, rfl⟩
    exact ⟨⟨frame, layout, head, walk, hframe, hhead, ht, hwalk⟩, rfl, rfl⟩
  · rintro ⟨c, rfl, rfl⟩
    exact ⟨(c.frame, c.layout), c.frame_eq, c.head, c.head_eq, ⟨⟩, c.target, c.walk, c.walk_eq, rfl, rfl⟩

end MethodDef

end CilMmix
