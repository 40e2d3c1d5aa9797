import CilMmix.Fault

/-! Taking apart computations that may end in a fault. -/

namespace CilMmix

theorem bind_eq_ok {ε α β : Type} {x : Except ε α} {f : α → Except ε β} {b : β} :
    (x >>= f) = .ok b ↔ ∃ a, x = .ok a ∧ f a = .ok b := by
  cases x with
  | error e => simp [bind, Except.bind]
  | ok a => simp [bind, Except.bind]

theorem bind_eq_error {ε α β : Type} {x : Except ε α} {f : α → Except ε β} {e : ε} :
    (x >>= f) = .error e ↔ x = .error e ∨ ∃ a, x = .ok a ∧ f a = .error e := by
  cases x with
  | error e => simp [bind, Except.bind]
  | ok a => simp [bind, Except.bind]

theorem map_eq_ok {ε α β : Type} {x : Except ε α} {f : α → β} {b : β} :
    x.map f = .ok b ↔ ∃ a, x = .ok a ∧ f a = b := by
  cases x with
  | error e => simp [Except.map]
  | ok a => simp [Except.map]

theorem pure_eq_ok {ε α : Type} {a b : α} : (pure a : Except ε α) = .ok b ↔ b = a := by
  simp [pure, Except.pure, eq_comm]

theorem discard_eq_ok {ε α : Type} {x : Except ε α} {u : Unit} :
    discard x = .ok u ↔ ∃ a, x = .ok a := by
  cases x <;> simp [discard, Functor.mapConst, Except.map]

theorem discard_eq_error {ε α : Type} {x : Except ε α} {e : ε} :
    discard x = .error e ↔ x = .error e := by
  cases x <;> simp [discard, Functor.mapConst, Except.map]

theorem forM_eq_ok {ε α : Type} {f : α → Except ε Unit} {xs : List α} {u : Unit} :
    xs.forM f = .ok u ↔ ∀ x ∈ xs, f x = .ok ⟨⟩ := by
  induction xs with
  | nil => simp [pure, Except.pure]
  | cons x xs ih =>
    change (f x >>= fun _ => xs.forM f) = _ ↔ _
    rw [bind_eq_ok, List.forall_mem_cons, ih]
    constructor
    · rintro ⟨_, hx, hxs⟩
      exact ⟨hx, hxs⟩
    · rintro ⟨hx, hxs⟩
      exact ⟨⟨⟩, hx, hxs⟩

/-- A loop stops at the first fault. -/
theorem forM_eq_error {ε α : Type} {f : α → Except ε Unit} {xs : List α} {e : ε} :
    xs.forM f = .error e ↔ ∃ before x after, xs = before ++ x :: after ∧ f x = .error e ∧
      ∀ y ∈ before, f y = .ok ⟨⟩ := by
  induction xs with
  | nil => simp [pure, Except.pure]
  | cons x xs ih =>
    change (f x >>= fun _ => xs.forM f) = _ ↔ _
    rw [bind_eq_error, ih]
    constructor
    · rintro (hx | ⟨_, hx, before, y, after, rfl, hy, hbefore⟩)
      · exact ⟨[], x, xs, rfl, hx, List.forall_mem_nil _⟩
      · exact ⟨x :: before, y, after, rfl, hy, List.forall_mem_cons.mpr ⟨hx, hbefore⟩⟩
    · rintro ⟨before, y, after, hsplit, hy, hbefore⟩
      cases before with
      | nil =>
        cases hsplit
        exact .inl hy
      | cons b before =>
        cases hsplit
        obtain ⟨hx, hbefore⟩ := List.forall_mem_cons.mp hbefore
        exact .inr ⟨⟨⟩, hx, before, y, after, rfl, hy, hbefore⟩

/-- Whether there is a result can be computed. -/
theorem exists_of_toBool {ε α : Type} {x : Except ε α} (h : x.toBool = true) : ∃ a, x = .ok a := by
  cases x with
  | error e => cases h
  | ok a => exact ⟨a, rfl⟩

/-- What a result is like can be computed. -/
theorem exists_of_toOption {ε α β : Type} {x : Except ε α} {f : α → β} {b : β}
    (h : x.toOption.map f = some b) : ∃ a, x = .ok a ∧ f a = b := by
  cases x with
  | error e => cases h
  | ok a => exact ⟨a, rfl, Option.some.inj h⟩

/-- All faults that a computation may end in have a property. -/
def Throws {α : Type} (P : Fault → Prop) (x : Except Fault α) : Prop :=
  ∀ fault, x = .error fault → P fault

namespace Throws

variable {P Q : Fault → Prop} {α β : Type}

theorem ok (a : α) : Throws P (.ok a) := nofun

theorem pure (a : α) : Throws P (pure a) := nofun

theorem error {fault : Fault} (h : P fault) : Throws P (.error fault : Except Fault α) := by
  intro _ he
  cases he
  exact h

theorem bind {x : Except Fault α} {f : α → Except Fault β} (hx : Throws P x)
    (hf : ∀ a, Throws P (f a)) : Throws P (x >>= f) := by
  intro fault h
  rcases bind_eq_error.mp h with h | ⟨a, -, h⟩
  · exact hx fault h
  · exact hf a fault h

theorem map {x : Except Fault α} (hx : Throws P x) (f : α → β) : Throws P (x.map f) := by
  cases x with
  | ok a => exact .ok (f a)
  | error fault => exact .error (hx fault rfl)

theorem mono {x : Except Fault α} (hx : Throws P x) (h : ∀ fault, P fault → Q fault) : Throws Q x :=
  fun fault he => h fault (hx fault he)

end Throws

/-- A fault that does not name the method it was found in. -/
def Fault.Bare (fault : Fault) : Prop := fault.rootCause = fault

/-- The steps of a computation with a state. -/
theorem bind_ok {σ α β : Type} {x : StateT σ (Except Fault) α} {f : α → StateT σ (Except Fault) β}
    {s s' : σ} {b : β} :
    (x >>= f) s = .ok (b, s') ↔ ∃ a t, x s = .ok (a, t) ∧ f a t = .ok (b, s') := by
  change (x s >>= fun p => f p.1 p.2) = _ ↔ _
  simp only [bind_eq_ok, Prod.exists]

theorem bind_run {σ α β : Type} {x : StateT σ (Except Fault) α} {f : α → StateT σ (Except Fault) β}
    {s t : σ} {a : α} (h : x s = .ok (a, t)) : (x >>= f) s = f a t := by
  change (x s >>= fun p => f p.1 p.2) = _
  rw [h]
  rfl

theorem pure_ok {σ α : Type} {a b : α} {s s' : σ} :
    (pure a : StateT σ (Except Fault) α) s = .ok (b, s') ↔ b = a ∧ s' = s := by
  change Except.ok (a, s) = _ ↔ _
  simp [eq_comm]

end CilMmix
