import CilMmix.Proofs.Machine.Moves

/-! A copy of registers as a whole: when it can be written, what it does, and what is left of it when a
register is missing. -/

namespace CilMmix

variable {source dest i count : Nat}

theorem copyWord_of_lt (h : max source dest + i < registerCount) :
    ∃ line, copyWord source dest i = .ok line := by
  have hd : dest + i < registerCount := by omega
  have hs : source + i < registerCount := by omega
  simp [copyWord, Reg.ofIndex, hd, hs, bind, Except.bind, pure, Except.pure]

/-- The destination is looked at first. Either way the missing register is named. -/
theorem copyWord_of_ge (h : registerCount ≤ max source dest + i) :
    ∃ index ≥ registerCount, copyWord source dest i = .error (.registerExhausted index) := by
  by_cases hd : dest + i < registerCount
  · have hs : ¬ source + i < registerCount := by omega
    exact ⟨source + i, by omega, by simp [copyWord, Reg.ofIndex, hd, hs, bind, Except.bind]⟩
  · exact ⟨dest + i, by omega, by simp [copyWord, Reg.ofIndex, hd, bind, Except.bind]⟩

theorem Draft.complete_of_fault {d : Draft} (h : d.fault = none) : d.complete = .ok d.lines := by
  rw [complete, h]

theorem copyDownward_fits (h : max source dest + count ≤ registerCount) :
    (copyDownward source dest count).fault = none := by
  induction count with
  | zero => rfl
  | succ count ih =>
    have hlt : max source dest + count < registerCount := by omega
    obtain ⟨line, hline⟩ := copyWord_of_lt hlt
    rw [copyDownward, hline]
    exact ih (by omega)

/-- The first word has the highest registers, so nothing is written when one of them is missing. -/
theorem copyDownward_overflows (hcount : count ≠ 0) (h : registerCount < max source dest + count) :
    ∃ index ≥ registerCount, copyDownward source dest count = .stopped (.registerExhausted index) := by
  obtain ⟨count, rfl⟩ := Nat.exists_eq_succ_of_ne_zero hcount
  have hge : registerCount ≤ max source dest + count := by omega
  obtain ⟨index, hindex, hword⟩ := copyWord_of_ge hge
  exact ⟨index, hindex, by rw [copyDownward, hword]⟩

theorem copyUpward_fits (h : max source dest + i + count ≤ registerCount) :
    (copyUpward source dest i count).fault = none := by
  induction count generalizing i with
  | zero => rfl
  | succ count ih =>
    have hlt : max source dest + i < registerCount := by omega
    obtain ⟨line, hline⟩ := copyWord_of_lt hlt
    rw [copyUpward, hline]
    exact ih (by omega)

theorem copyUpward_overflows (hcount : count ≠ 0) (h : registerCount < max source dest + i + count) :
    ∃ index ≥ registerCount,
      (copyUpward source dest i count).fault = some (.registerExhausted index) := by
  induction count generalizing i with
  | zero => exact absurd rfl hcount
  | succ count ih =>
    rw [copyUpward]
    by_cases hi : max source dest + i < registerCount
    · obtain ⟨line, hline⟩ := copyWord_of_lt hi
      rw [hline]
      exact ih (by omega) (by omega)
    · obtain ⟨index, hindex, hword⟩ := copyWord_of_ge (Nat.le_of_not_lt hi)
      rw [hword]
      exact ⟨index, hindex, rfl⟩

theorem copyWords_eq_empty (h : source = dest ∨ count = 0) : copyWords source dest count = .empty := by
  unfold copyWords
  rcases h with rfl | rfl
  · exact if_pos rfl
  · split
    · rfl
    · split <;> rfl

theorem copyWords_fits (h : max source dest + count ≤ registerCount) :
    (copyWords source dest count).fault = none := by
  unfold copyWords
  split
  · rfl
  · split
    · exact copyDownward_fits h
    · exact copyUpward_fits h

theorem copyWords_overflows
    (h : ¬ (source = dest ∨ count = 0 ∨ max source dest + count ≤ registerCount)) :
    (∃ index ≥ registerCount, (copyWords source dest count).fault = some (.registerExhausted index)) ∧
      (source < dest → (copyWords source dest count).lines = []) := by
  obtain ⟨hne, hcount, hover⟩ : source ≠ dest ∧ count ≠ 0 ∧ registerCount < max source dest + count := by
    omega
  rw [copyWords, if_neg hne]
  by_cases hlt : source < dest
  · obtain ⟨index, hindex, hstopped⟩ := copyDownward_overflows hcount hover
    rw [if_pos hlt, hstopped]
    exact ⟨⟨index, hindex, rfl⟩, fun _ => rfl⟩
  · rw [if_neg hlt]
    exact ⟨copyUpward_overflows hcount hover, fun hlt' => absurd hlt' hlt⟩

theorem copyWords_fault_eq_none : (copyWords source dest count).fault = none ↔
    source = dest ∨ count = 0 ∨ max source dest + count ≤ registerCount := by
  constructor
  · intro h
    by_contra hnot
    obtain ⟨⟨index, -, hfault⟩, -⟩ := copyWords_overflows hnot
    rw [h] at hfault
    cases hfault
  · rintro (he | he | hle)
    · rw [copyWords_eq_empty (.inl he)]
      rfl
    · rw [copyWords_eq_empty (.inr he)]
      rfl
    · exact copyWords_fits hle

/-- A copy of no registers, or to where they are, is empty. Any other one can be written if and only if
all its registers exist. It then moves all words at once, as it were: every destination gets what its
source held before the first line, however the two runs overlap. -/
theorem copyWords_simultaneous (source dest count : Nat) :
    (source = dest ∨ count = 0 → copyWords source dest count = .empty) ∧
    (source ≠ dest → count ≠ 0 →
      ((copyWords source dest count).fault = none ↔ max source dest + count ≤ registerCount)) ∧
    ((copyWords source dest count).fault = none →
      (∀ l ∈ (copyWords source dest count).lines, ∃ x y : Reg, l = .ins .set [.reg x, .reg y]) ∧
      ∀ m : Machine, ∃ m', run (copyWords source dest count).lines m = (m', .fall) ∧
        (∀ k < count, m'.regs (dest + k) = m.regs (source + k)) ∧
        (∀ k, k < dest ∨ dest + count ≤ k → m'.regs k = m.regs k) ∧ m'.special = m.special) ∧
    ∀ fault, (copyWords source dest count).fault = some fault →
      (∃ index ≥ registerCount, fault = .registerExhausted index) ∧
      (source < dest → (copyWords source dest count).lines = []) := by
  refine ⟨copyWords_eq_empty, fun hne hcount => ?_, fun hfits => ?_, fun fault hfault => ?_⟩
  · rw [copyWords_fault_eq_none]
    omega
  · have hmoves := copyWords_ok (Draft.complete_of_fault hfits)
    refine ⟨fun l hl => ?_, fun m => ?_⟩
    · obtain ⟨_, -, x, y, -, -, hset⟩ := hmoves.mem hl
      exact ⟨x, y, hset⟩
    · exact ⟨_, run_moves hmoves m, fun k hk => copy_inside hk m.regs,
        fun k hk => copy_outside hk m.regs, rfl⟩
  · have hnot : ¬ (source = dest ∨ count = 0 ∨ max source dest + count ≤ registerCount) := by
      rw [← copyWords_fault_eq_none, hfault]
      exact Option.some_ne_none fault
    obtain ⟨⟨index, hindex, hsome⟩, hnone⟩ := copyWords_overflows hnot
    rw [hfault] at hsome
    exact ⟨⟨index, hindex, Option.some.inj hsome⟩, hnone⟩

end CilMmix
