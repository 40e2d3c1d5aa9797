import CilMmix.Method.Walk
import CilMmix.Proofs.Outcome

/-! Two computations side by side. They end alike when both have the same fault or both have results, and
these are related. Two walks whose steps end alike end alike as a whole. -/

namespace CilMmix

inductive Agree {α β : Type} (R : α → β → Prop) : Except Fault α → Except Fault β → Prop
  | ok {a : α} {b : β} : R a b → Agree R (.ok a) (.ok b)
  | error (fault : Fault) : Agree R (.error fault) (.error fault)

namespace Agree

variable {α β γ δ : Type} {R : α → β → Prop} {S : γ → δ → Prop}

theorem bind {x : Except Fault α} {y : Except Fault β} {f : α → Except Fault γ}
    {g : β → Except Fault δ} (h : Agree R x y)
    (hf : ∀ a b, x = .ok a → y = .ok b → R a b → Agree S (f a) (g b)) :
    Agree S (x >>= f) (y >>= g) := by
  cases h with
  | ok hab => exact hf _ _ rfl rfl hab
  | error fault => exact .error fault

theorem mono {R' : α → β → Prop} {x : Except Fault α} {y : Except Fault β} (h : Agree R x y)
    (himp : ∀ a b, R a b → R' a b) : Agree R' x y := by
  cases h with
  | ok hab => exact .ok (himp _ _ hab)
  | error fault => exact .error fault

theorem of_eq {R : α → α → Prop} {x : Except Fault α} (h : ∀ a, x = .ok a → R a a) : Agree R x x := by
  cases hx : x with
  | ok a => exact .ok (h a hx)
  | error fault => exact .error fault

/-- Where the first result determines the second, one computation is an image of the other. -/
theorem eq_map {f : α → β} {x : Except Fault α} {y : Except Fault β}
    (h : Agree (fun a b => b = f a) x y) : y = x.map f := by
  cases h with
  | ok hab => rw [hab]; rfl
  | error fault => rfl

end Agree

namespace Walk

theorem run_of_nil {route : Route} {w : Walk} (hq : w.queue = []) : w.run route = .ok w := by
  rw [run]
  split
  · rfl
  · rename_i hq'
    cases hq.symm.trans hq'

theorem run_of_cons {route : Route} {w : Walk} {i : Nat} {arriving : List Element}
    {queue : List (Nat × List Element)} (hq : w.queue = (i, arriving) :: queue) :
    w.run route = w.step route i arriving queue >>= run route := by
  rw [run]
  split
  · rename_i hq'
    cases hq.symm.trans hq'
  · rename_i hq'
    cases hq.symm.trans hq'
    split
    · rename_i hs
      rw [hs]
      rfl
    · rename_i hs
      rw [hs]
      rfl

/-- Walks in step: whatever the next arrival comes to, it comes to the same on both sides. -/
theorem agree_run {route route' : Route} {R : Walk → Walk → Prop}
    (hqueue : ∀ w v, R w v → v.queue = w.queue)
    (hstep : ∀ w v i arriving queue, w.queue = (i, arriving) :: queue → R w v →
      Agree R (w.step route i arriving queue) (v.step route' i arriving queue))
    {w v : Walk} (h : R w v) : Agree R (w.run route) (v.run route') := by
  induction hn : w.remaining using Nat.strongRecOn generalizing w v with
  | ind n ih =>
    have hv := hqueue w v h
    cases hq : w.queue with
    | nil =>
      rw [run_of_nil hq, run_of_nil (hv.trans hq)]
      exact .ok h
    | cons next queue =>
      obtain ⟨i, arriving⟩ := next
      rw [run_of_cons hq, run_of_cons (hv.trans hq)]
      apply (hstep w v i arriving queue hq h).bind
      intro w' v' hw _ hr
      exact ih w'.remaining (hn ▸ remaining_step hq hw) hr rfl

end Walk

end CilMmix
