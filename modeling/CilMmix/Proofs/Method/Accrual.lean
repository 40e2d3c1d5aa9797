import CilMmix.Proofs.Lowering.Growth
import CilMmix.Proofs.Method.Pieces

/-! The parts of a method's code as they were written, and static storage meanwhile. It only grows, so
what an instruction was given when it got its code is still there at the end. -/

namespace CilMmix

namespace Walk

/-- A walk in which storage grows from the start on, and from every visit on. -/
structure Accrues (route : Route) (types : List TypeDef) (first : Statics) (w : Walk) : Prop where
  layout : w.session.layout.Sound types
  grows : first.Grows (Lower.Declared types) w.session.statics
  visited : ∀ (i : Nat) instruction v, w.stops[i]? = some ⟨instruction, some v⟩ →
    ∃ (session : Session) (after : LowerState), session.layout.Sound types ∧
      route.visit instruction v.arrival session = .ok (v.lines, after) ∧
      after.statics.Grows (Lower.Declared types) w.session.statics

variable {route : Route} {types : List TypeDef} {first : Statics}

theorem accrues_start (route : Route) {session : Session} (h : session.layout.Sound types) :
    (start route.body session).Accrues route types session.statics where
  layout := h
  grows := .refl
  visited i instruction v hv := by simp [start] at hv

theorem Accrues.step {w w' : Walk} {i : Nat} {arriving : List Element}
    {queue : List (Nat × List Element)} (h : w.Accrues route types first)
    (hs : w.step route i arriving queue = .ok w') : w'.Accrues route types first := by
  rcases step_ok hs with ⟨-, rfl⟩ | ⟨instruction, first, -, -, rfl⟩ |
      ⟨instruction, lines, after, o, hnew, hvisit, -, rfl⟩
  · exact ⟨h.layout, h.grows, h.visited⟩
  · exact ⟨h.layout, h.grows, h.visited⟩
  obtain ⟨code, hcode, -⟩ := Route.visit_ok.mp hvisit
  obtain ⟨hlayout, hgrows, -⟩ := Lower.grows_instruction route.site instruction _ h.layout code after hcode
  refine ⟨hlayout, h.grows.trans hgrows, fun j instruction' v hv => ?_⟩
  by_cases hij : i = j
  · subst hij
    have hlt := (List.getElem?_eq_some_iff.mp hnew).1
    simp only [List.getElem?_set_self hlt, Option.some.injEq, Stop.mk.injEq] at hv
    obtain ⟨rfl, rfl⟩ := hv
    exact ⟨w.session, after, h.layout, hvisit, .refl⟩
  · rw [List.getElem?_set_ne hij] at hv
    obtain ⟨session, after', hsession, hvisit', hgrows'⟩ := h.visited j instruction' v hv
    exact ⟨session, after', hsession, hvisit', hgrows'.trans hgrows⟩

end Walk

namespace MethodDef.Compilation

variable {m : MethodDef} {options : Options} {session : Session} {types : List TypeDef}

/-- The head of a method: its label, and steps that save the return address and move the arguments. -/
theorem head_fits (c : m.Compilation options session) :
    ∀ l ∈ c.head, l = .note (some c.route.site.label) m.signature ∨ l.Fits 0 := by
  obtain ⟨o, moves, -, hmoves, hhead⟩ := prologue_ok c.head_eq
  intro l hl
  rw [hhead] at hl
  rcases List.mem_cons.mp hl with rfl | hl
  · exact .inl rfl
  rcases List.mem_append.mp hl with hl | hl
  · cases o with
    | none => cases hl
    | some r =>
      obtain rfl := List.mem_singleton.mp hl
      exact .inr (.small rfl (by simp))
  · exact .inr (hmoves.fits l hl)

theorem accrues (c : m.Compilation options session) (hs : session.layout.Sound types) :
    c.walk.Accrues c.route types session.statics := by
  have hlayout : c.layout.Sound types := ((Frame.build_ok c.frame_eq).2 types hs).1
  have hstart := Walk.accrues_start c.route
    (show ({ session with layout := c.layout } : Session).layout.Sound types from hlayout)
  exact (Walk.run_ok (fun _ _ _ _ _ _ hstep hw => hw.step hstep) hstart c.walk_eq).1

/-- How an instruction that was reached got its code. The layout knew the types, and all storage that
there was then is part of what there is when the method is done. -/
theorem visit_sound (c : m.Compilation options session) (hs : session.layout.Sound types) {i : Nat}
    {instruction : Instruction} {v : Visit} (hi : m.code[i]? = some instruction)
    (hv : c.visit? i = some v) :
    ∃ (σ : Session) (after : LowerState) (code : List Line), σ.layout.Sound types ∧
      Shape.Stacked c.frame.stop (shape v.arrival) ∧ Line.IsCode code ∧
      Lower.instruction c.route.site instruction { σ with stack := ⟨c.frame.stop, v.arrival⟩ } =
        .ok (code, after) ∧
      v.lines = piece options.annotate (c.route.label? instruction.offset) instruction code ∧
      after.statics.Grows (Lower.Declared types) c.walk.session.statics := by
  obtain ⟨instruction', hstop⟩ := visit?_eq_some.mp hv
  obtain ⟨hstacked, _⟩ := c.covers_operands.visit_spec hv
  have hi' : m.code[i]? = some instruction' := c.covers_operands.1.instruction_eq hstop
  cases hi.symm.trans hi'
  obtain ⟨σ, after, hσ, hvisit, hgrows⟩ := (c.accrues hs).visited i instruction v hstop
  obtain ⟨code, hcode, hlines⟩ := Route.visit_ok.mp hvisit
  exact ⟨σ, after, code, hσ, hstacked, Lower.instruction_isCode c.laid rfl hstacked hcode, hcode, hlines,
    hgrows⟩

end MethodDef.Compilation

end CilMmix
