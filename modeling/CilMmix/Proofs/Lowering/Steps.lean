import CilMmix.Lowering.Instruction
import CilMmix.Proofs.Window.Shape

/-! What the steps of lowering do to the state, for those that succeed. -/

namespace CilMmix

/-- The state with other operands. -/
def LowerState.withElems (s : LowerState) (elems : List Element) : LowerState :=
  { s with stack := { s.stack with elems } }

@[simp] theorem LowerState.withElems_elems (s : LowerState) (elems : List Element) :
    (s.withElems elems).stack.elems = elems := rfl

@[simp] theorem LowerState.withElems_base (s : LowerState) (elems : List Element) :
    (s.withElems elems).stack.base = s.stack.base := rfl

namespace Lower

theorem get_ok {s t s' : LowerState} : (get : Lower LowerState) s = .ok (t, s') ↔ t = s ∧ s' = s := by
  change Except.ok (s, s) = _ ↔ _
  simp [eq_comm]

theorem lift_ok {α : Type} {x : Except Fault α} {b : α} {s s' : LowerState} :
    (liftM x : Lower α) s = .ok (b, s') ↔ x = .ok b ∧ s' = s := by
  cases x with
  | error fault =>
    change Except.error fault = _ ↔ _
    simp
  | ok a =>
    change Except.ok (a, s) = _ ↔ _
    simp [eq_comm]

theorem pop_ok {s s' : LowerState} {r : Reg} : pop s = .ok (r, s') ↔
    ∃ e rest, s.stack.elems = e :: rest ∧ r.index.val = e.offset ∧ s' = s.withElems rest := by
  simp only [pop, bind_eq_ok, pure_eq_ok, Prod.exists, Prod.mk.injEq, OperandStack.pop_eq_ok]
  constructor
  · rintro ⟨_, _, _, ⟨e, rest, he, hr, rfl, rfl⟩, rfl, rfl⟩
    exact ⟨e, rest, he, hr, rfl⟩
  · rintro ⟨e, rest, he, hr, rfl⟩
    exact ⟨r, e.ty, _, ⟨e, rest, he, hr, rfl, rfl⟩, rfl, rfl⟩

theorem operand_ok {s s' : LowerState} {index word : Nat} {r : Reg} :
    operand index word s = .ok (r, s') ↔
      (∃ e, s.stack.elems[index]? = some e ∧ r.index.val = e.offset + word) ∧ s' = s := by
  simp only [operand, bind_ok, get_ok, lift_ok, OperandStack.reg_eq_ok]
  constructor
  · rintro ⟨_, _, ⟨rfl, rfl⟩, he, rfl⟩
    exact ⟨he, rfl⟩
  · rintro ⟨he, rfl⟩
    exact ⟨_, _, ⟨rfl, rfl⟩, he, rfl⟩

theorem peek_ok {s s' : LowerState} {index : Nat} {e : Element} :
    peek index s = .ok (e, s') ↔ s.stack.elems[index]? = some e ∧ s' = s := by
  simp only [peek, bind_ok, get_ok, lift_ok, OperandStack.peek_eq_ok]
  constructor
  · rintro ⟨_, _, ⟨rfl, rfl⟩, he, rfl⟩
    exact ⟨he, rfl⟩
  · rintro ⟨he, rfl⟩
    exact ⟨_, _, ⟨rfl, rfl⟩, he, rfl⟩

theorem top_ok {s s' : LowerState} {n : Nat} :
    top s = .ok (n, s') ↔ n = Shape.top s.stack.base (shape s.stack.elems) ∧ s' = s := by
  simp only [top, bind_ok, get_ok, pure_ok, ← OperandStack.top_eq]
  constructor
  · rintro ⟨_, _, ⟨rfl, rfl⟩, hn, rfl⟩
    exact ⟨hn, rfl⟩
  · rintro ⟨hn, rfl⟩
    exact ⟨_, _, ⟨rfl, rfl⟩, hn, rfl⟩

theorem pushSized_ok {s s' : LowerState} {ty : TypeRef} {size : Size} {origin : Option String}
    {u : Unit} : pushSized ty size origin s = .ok (u, s') ↔ (size.words = 0 ∧ s' = s) ∨
      (0 < size.words ∧ Shape.top s.stack.base (shape s.stack.elems) + size.words ≤ registerCount ∧
        s' = s.withElems (⟨Shape.top s.stack.base (shape s.stack.elems), size, ty, origin⟩ ::
          s.stack.elems)) := by
  simp only [pushSized, bind_eq_ok, pure_eq_ok, Prod.mk.injEq, OperandStack.push_eq_ok,
    OperandStack.top_eq, true_and]
  constructor
  · rintro ⟨stack, ⟨hz, rfl⟩ | ⟨hp, hfit, rfl⟩, rfl⟩
    · exact .inl ⟨hz, rfl⟩
    · exact .inr ⟨hp, hfit, rfl⟩
  · rintro (⟨hz, rfl⟩ | ⟨hp, hfit, rfl⟩)
    · exact ⟨s'.stack, .inl ⟨hz, rfl⟩, rfl⟩
    · exact ⟨_, .inr ⟨hp, hfit, rfl⟩, rfl⟩

theorem mapM_ok {α β : Type} {f : α → Lower β} {l : List α} {s s' : LowerState} {bs : List β}
    (hf : ∀ a t b t', f a t = .ok (b, t') → t' = t) (h : l.mapM f s = .ok (bs, s')) :
    s' = s ∧ List.Forall₂ (fun a b => f a s = .ok (b, s)) l bs := by
  induction l generalizing s bs with
  | nil =>
    obtain ⟨rfl, rfl⟩ := pure_ok.mp h
    exact ⟨rfl, .nil⟩
  | cons a l ih =>
    rw [List.mapM_cons] at h
    simp only [bind_ok, pure_ok] at h
    obtain ⟨b, t, hb, bs', t', hl, rfl, rfl⟩ := h
    obtain rfl := hf a s b t hb
    obtain ⟨rfl, hall⟩ := ih hl
    exact ⟨rfl, .cons hb hall⟩

theorem mapM_all {α β : Type} {f : α → Lower β} {Q : β → Prop} {l : List α} {s s' : LowerState}
    {bs : List β} (hf : ∀ a t b t', f a t = .ok (b, t') → Q b) (h : l.mapM f s = .ok (bs, s')) :
    (∀ b ∈ bs, Q b) ∧ bs.length = l.length := by
  induction l generalizing s bs with
  | nil =>
    obtain ⟨rfl, -⟩ := pure_ok.mp h
    exact ⟨nofun, rfl⟩
  | cons a l ih =>
    rw [List.mapM_cons] at h
    simp only [bind_ok, pure_ok] at h
    obtain ⟨b, t, hb, bs', t', hl, rfl, rfl⟩ := h
    obtain ⟨hall, hlen⟩ := ih hl
    refine ⟨fun c hc => ?_, by simp [hlen]⟩
    rcases List.mem_cons.mp hc with rfl | hc
    · exact hf a s c t hb
    · exact hall c hc

/-- Pushing a number, whose size needs no look at the types. -/
theorem push_primitive_ok {s s' : LowerState} {origin : String} {p : Primitive} {u : Unit}
    (hp : p.size.words = 1) : push origin (.primitive p) s = .ok (u, s') ↔
      Shape.top s.stack.base (shape s.stack.elems) + 1 ≤ registerCount ∧
        s' = s.withElems (⟨Shape.top s.stack.base (shape s.stack.elems), p.size, .primitive p,
          some origin⟩ :: s.stack.elems) := by
  have hsize : ∀ size t, sizeOf (.primitive p) s = .ok (size, t) ↔ size = p.size ∧ t = s := by
    intro size t
    change Except.ok (p.size, s) = _ ↔ _
    simp [eq_comm]
  simp only [push, bind_ok, hsize, pushSized_ok]
  constructor
  · rintro ⟨_, _, ⟨rfl, rfl⟩, ⟨hz, -⟩ | ⟨-, hfit, rfl⟩⟩
    · omega
    · exact ⟨by omega, rfl⟩
  · rintro ⟨hfit, rfl⟩
    exact ⟨_, _, ⟨rfl, rfl⟩, .inr ⟨by omega, by omega, rfl⟩⟩

end Lower

end CilMmix
