import Mathlib.Data.List.Forall2
import CilMmix.Assembly.Copy
import CilMmix.Assembly.Immediate
import CilMmix.Proofs.Assembly.Parts
import CilMmix.Proofs.Window.Shape

/-! Lines that set registers to other registers, as lists of index pairs. -/

namespace CilMmix

/-- A line that sets the register with the first index to the one with the second. -/
def Line.IsMove (p : Nat × Nat) (l : Line) : Prop :=
  ∃ x y : Reg, x.index.val = p.1 ∧ y.index.val = p.2 ∧ l = .ins .set [.reg x, .reg y]

/-- Lines that make moves one after the other. -/
abbrev Moves : List (Nat × Nat) → List Line → Prop := List.Forall₂ Line.IsMove

theorem Draft.complete_cons (d : Draft) (line : Line) {lines : List Line} :
    (d.cons line).complete = .ok lines ↔ ∃ rest, d.complete = .ok rest ∧ lines = line :: rest := by
  unfold complete cons
  cases d.fault <;> simp [eq_comm]

theorem copyWord_ok {source dest i : Nat} {line : Line} (h : copyWord source dest i = .ok line) :
    line.IsMove (dest + i, source + i) := by
  simp only [copyWord, bind_eq_ok, pure_eq_ok, Reg.ofIndex_eq_ok] at h
  obtain ⟨x, hx, y, hy, rfl⟩ := h
  exact ⟨x, y, hx, hy, rfl⟩

theorem copyDownward_ok {source dest count : Nat} {lines : List Line}
    (h : (copyDownward source dest count).complete = .ok lines) :
    Moves ((List.range count).reverse.map fun k => (dest + k, source + k)) lines := by
  induction count generalizing lines with
  | zero =>
    cases h
    exact .nil
  | succ count ih =>
    rw [copyDownward] at h
    split at h
    · rename_i line hline
      obtain ⟨rest, hrest, rfl⟩ := (Draft.complete_cons _ _).mp h
      rw [List.range_succ, List.reverse_append]
      exact .cons (copyWord_ok hline) (ih hrest)
    · cases h

theorem copyUpward_ok {source dest i count : Nat} {lines : List Line}
    (h : (copyUpward source dest i count).complete = .ok lines) :
    Moves ((List.range' i count).map fun k => (dest + k, source + k)) lines := by
  induction count generalizing i lines with
  | zero =>
    cases h
    exact .nil
  | succ count ih =>
    rw [copyUpward] at h
    split at h
    · rename_i line hline
      obtain ⟨rest, hrest, rfl⟩ := (Draft.complete_cons _ _).mp h
      exact .cons (copyWord_ok hline) (ih hrest)
    · cases h

/-- The moves of a copy in their order. -/
def copyPairs (source dest count : Nat) : List (Nat × Nat) :=
  if source = dest then []
  else if source < dest then (List.range count).reverse.map fun k => (dest + k, source + k)
  else (List.range count).map fun k => (dest + k, source + k)

theorem copyWords_ok {source dest count : Nat} {lines : List Line}
    (h : (copyWords source dest count).complete = .ok lines) :
    Moves (copyPairs source dest count) lines := by
  unfold copyWords at h
  unfold copyPairs
  split at h
  · rw [if_pos ‹_›]
    cases h
    exact .nil
  · rw [if_neg ‹_›]
    split at h
    · rw [if_pos ‹_›]
      exact copyDownward_ok h
    · rw [if_neg ‹_›, List.range_eq_range']
      exact copyUpward_ok h

/-- Every line of a copy is a move, also when it could not be completed. -/
theorem mem_copyWords {source dest count : Nat} {l : Line}
    (h : l ∈ (copyWords source dest count).lines) : ∃ p, l.IsMove p := by
  have hdown : ∀ count, ∀ l ∈ (copyDownward source dest count).lines, ∃ p, l.IsMove p := by
    intro count
    induction count with
    | zero => exact List.forall_mem_nil _
    | succ count ih =>
      rw [copyDownward]
      cases hword : copyWord source dest count with
      | ok line => exact List.forall_mem_cons.mpr ⟨⟨_, copyWord_ok hword⟩, ih⟩
      | error fault => exact List.forall_mem_nil _
  have hup : ∀ count i, ∀ l ∈ (copyUpward source dest i count).lines, ∃ p, l.IsMove p := by
    intro count
    induction count with
    | zero => exact fun _ => List.forall_mem_nil _
    | succ count ih =>
      intro i
      rw [copyUpward]
      cases hword : copyWord source dest i with
      | ok line => exact List.forall_mem_cons.mpr ⟨⟨_, copyWord_ok hword⟩, ih (i + 1)⟩
      | error fault => exact List.forall_mem_nil _
  unfold copyWords at h
  split at h
  · cases h
  · split at h
    · exact hdown count l h
    · exact hup count 0 l h

theorem exists_of_forall₂ {α β : Type} {R : α → β → Prop} {as : List α} {bs : List β}
    (h : List.Forall₂ R as bs) {b : β} (hb : b ∈ bs) : ∃ a ∈ as, R a b := by
  induction h with
  | nil => cases hb
  | cons hr _ ih =>
    rcases List.mem_cons.mp hb with rfl | hb
    · exact ⟨_, List.mem_cons_self, hr⟩
    · obtain ⟨a, hmem, hr⟩ := ih hb
      exact ⟨a, List.mem_cons_of_mem _ hmem, hr⟩

theorem Moves.mem {pairs : List (Nat × Nat)} {lines : List Line} (h : Moves pairs lines) {l : Line}
    (hl : l ∈ lines) : ∃ p ∈ pairs, l.IsMove p := exists_of_forall₂ h hl

theorem Moves.ins {pairs : List (Nat × Nat)} {lines : List Line} (h : Moves pairs lines) :
    ∀ l ∈ lines, ∃ c operands, l = Line.ins c operands := by
  intro l hl
  obtain ⟨_, -, x, y, -, -, rfl⟩ := h.mem hl
  exact ⟨_, _, rfl⟩

end CilMmix
