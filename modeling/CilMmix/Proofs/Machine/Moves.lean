import CilMmix.Proofs.Assembly.Moves
import CilMmix.Proofs.Machine.Basic

/-! Running moves between registers. In a safe order every destination receives what its source held
at the start. -/

namespace CilMmix

/-- The words in registers that follow each other. -/
def Registers.read (r : Registers) (offset words : Nat) : List Word :=
  (List.range words).map fun k => r (offset + k)

namespace Registers

@[simp] theorem length_read (r : Registers) (offset words : Nat) :
    (r.read offset words).length = words := by simp [read]

theorem read_congr {r r' : Registers} {offset words : Nat}
    (h : ∀ k, offset ≤ k → k < offset + words → r k = r' k) :
    r.read offset words = r'.read offset words := by
  refine List.map_congr_left fun k hk => h _ ?_ ?_
  · omega
  · have hlt := List.mem_range.mp hk
    omega

theorem read_shift {r r' : Registers} {offset offset' words : Nat}
    (h : ∀ k, k < words → r (offset + k) = r' (offset' + k)) :
    r.read offset words = r'.read offset' words :=
  List.map_congr_left fun k hk => h k (List.mem_range.mp hk)

@[simp] theorem read_one (r : Registers) (offset : Nat) : r.read offset 1 = [r offset] := by
  simp [read]

theorem read_succ (r : Registers) (offset words : Nat) :
    r.read offset (words + 1) = r offset :: r.read (offset + 1) words := by
  simp [read, List.range_succ_eq_map, Function.comp_def, Nat.add_right_comm, ← Nat.add_assoc]

end Registers

/-- The registers after moves. -/
def runMoves (pairs : List (Nat × Nat)) (r : Registers) : Registers :=
  pairs.foldl (fun r p => Function.update r p.1 (r p.2)) r

theorem run_moves {pairs : List (Nat × Nat)} {lines : List Line} (h : Moves pairs lines)
    (m : Machine) : run lines m = ({ m with regs := runMoves pairs m.regs }, .fall) := by
  induction h generalizing m with
  | nil => rfl
  | cons hp _ ih =>
    obtain ⟨x, y, hx, hy, rfl⟩ := hp
    rw [runMoves, List.foldl_cons, ← hx, ← hy]
    exact ih (m.set x.index.val (m.regs y.index.val))

theorem runMoves_of_not_mem {pairs : List (Nat × Nat)} {k : Nat} (h : ∀ p ∈ pairs, p.1 ≠ k)
    (r : Registers) : runMoves pairs r k = r k := by
  induction pairs generalizing r with
  | nil => rfl
  | cons p pairs ih =>
    have hp := h p List.mem_cons_self
    have hrest := ih (fun q hq => h q (List.mem_cons_of_mem _ hq)) (Function.update r p.1 (r p.2))
    rw [Function.update_of_ne hp.symm] at hrest
    exact hrest

/-- No register is overwritten twice, or before it is read. -/
def SafeOrder (pairs : List (Nat × Nat)) : Prop :=
  pairs.Pairwise fun p q => p.1 ≠ q.1 ∧ p.1 ≠ q.2

theorem SafeOrder.runMoves {pairs : List (Nat × Nat)} (h : SafeOrder pairs) {p : Nat × Nat}
    (hp : p ∈ pairs) (r : Registers) : runMoves pairs r p.1 = r p.2 := by
  induction pairs generalizing r with
  | nil => simp at hp
  | cons q pairs ih =>
    obtain ⟨hfirst, hrest⟩ := List.pairwise_cons.mp h
    change CilMmix.runMoves pairs (Function.update r q.1 (r q.2)) p.1 = _
    rcases List.mem_cons.mp hp with rfl | hp
    · rw [runMoves_of_not_mem (fun q hq => (hfirst q hq).1.symm), Function.update_self]
    · rw [ih hrest hp, Function.update_of_ne (hfirst p hp).2.symm]

theorem safeOrder_copyPairs (source dest count : Nat) : SafeOrder (copyPairs source dest count) := by
  unfold copyPairs SafeOrder
  split
  · exact .nil
  · split
    · rw [List.map_reverse, List.pairwise_reverse, List.pairwise_map]
      refine List.pairwise_lt_range.imp fun {k l} hkl => ?_
      omega
    · rw [List.pairwise_map]
      refine List.pairwise_lt_range.imp fun {k l} hkl => ?_
      omega

theorem mem_copyPairs {source dest count : Nat} {p : Nat × Nat}
    (h : p ∈ copyPairs source dest count) : ∃ k < count, p = (dest + k, source + k) := by
  unfold copyPairs at h
  split at h
  · simp at h
  · split at h <;>
    · simp only [List.mem_map, List.mem_reverse, List.mem_range] at h
      obtain ⟨k, hk, rfl⟩ := h
      exact ⟨k, hk, rfl⟩

/-- A copy brings every word to its place, whether or not the two runs overlap. -/
theorem copy_inside {source dest count k : Nat} (h : k < count) (r : Registers) :
    runMoves (copyPairs source dest count) r (dest + k) = r (source + k) := by
  by_cases he : source = dest
  · simp [copyPairs, he, runMoves]
  · refine (safeOrder_copyPairs source dest count).runMoves (p := (dest + k, source + k)) ?_ r
    unfold copyPairs
    rw [if_neg he]
    split <;> simpa using h

/-- A copy changes nothing else. -/
theorem copy_outside {source dest count k : Nat} (h : k < dest ∨ dest + count ≤ k) (r : Registers) :
    runMoves (copyPairs source dest count) r k = r k := by
  refine runMoves_of_not_mem (fun p hp => ?_) r
  obtain ⟨l, hl, rfl⟩ := mem_copyPairs hp
  simp only
  omega

theorem read_copy (source dest count : Nat) (r : Registers) :
    (runMoves (copyPairs source dest count) r).read dest count = r.read source count :=
  Registers.read_shift fun _ hk => copy_inside hk r

/-- The moves of a run to a place apart from it, the first word first. -/
theorem safeOrder_apart {source dest count : Nat} (h : source + count ≤ dest ∨ dest + count ≤ source) :
    SafeOrder ((List.range count).map fun k => (dest + k, source + k)) := by
  unfold SafeOrder
  rw [List.pairwise_map, List.pairwise_iff_getElem]
  intro i j hi hj hij
  simp only [List.length_range] at hi hj
  simp only [List.getElem_range]
  omega

theorem read_apart {source dest count : Nat} (h : source + count ≤ dest ∨ dest + count ≤ source)
    (r : Registers) : (runMoves ((List.range count).map fun k => (dest + k, source + k)) r).read
      dest count = r.read source count := by
  refine Registers.read_shift fun k hk => ?_
  refine (safeOrder_apart h).runMoves (p := (dest + k, source + k)) ?_ r
  exact List.mem_map.mpr ⟨k, List.mem_range.mpr hk, rfl⟩

theorem apart_outside {source dest count k : Nat} (h : k < dest ∨ dest + count ≤ k) (r : Registers) :
    runMoves ((List.range count).map fun k => (dest + k, source + k)) r k = r k := by
  refine runMoves_of_not_mem (fun p hp => ?_) r
  obtain ⟨l, hl, rfl⟩ := List.mem_map.mp hp
  have hlt := List.mem_range.mp hl
  simp only
  omega

/-- Every move finds in its source what was there before the first of the lines. -/
def ReadsIntact (lines : List Line) (m : Machine) : Prop :=
  ∀ before x y rest, lines = before ++ .ins .set [.reg x, .reg y] :: rest →
    ∃ m', run before m = (m', .fall) ∧ m'.regs y.index.val = m.regs y.index.val

/-- A line that is no move itself and leaves the sources alone. -/
theorem ReadsIntact.cons {l : Line} {lines : List Line} {m m' : Machine} (hl : l.act m = .go m')
    (hne : ∀ x y, l ≠ .ins .set [.reg x, .reg y]) (h : ReadsIntact lines m')
    (hkeep : ∀ x y : Reg, .ins .set [.reg x, .reg y] ∈ lines →
      m'.regs y.index.val = m.regs y.index.val) : ReadsIntact (l :: lines) m := by
  intro before x y rest he
  cases before with
  | nil => exact absurd (List.cons.inj he).1 (hne x y)
  | cons first before =>
    obtain ⟨rfl, rfl⟩ := List.cons.inj he
    obtain ⟨m₂, hrun, hread⟩ := h before x y rest rfl
    refine ⟨m₂, ?_, hread.trans (hkeep x y (by simp))⟩
    rw [run, hl]
    exact hrun

theorem Moves.readsIntact {pairs : List (Nat × Nat)} {lines : List Line} (h : Moves pairs lines)
    (hsafe : SafeOrder pairs) (m : Machine) : ReadsIntact lines m := by
  rintro before x y rest rfl
  have hdone := List.forall₂_take_append _ _ _ h
  obtain ⟨p, later, hp, -, hdrop⟩ := List.forall₂_cons_right_iff.mp (List.forall₂_drop_append _ _ _ h)
  obtain ⟨x', y', -, hy, he⟩ := hp
  cases he
  rw [SafeOrder, ← List.take_append_drop before.length pairs, hdrop] at hsafe
  have hkeep := (List.pairwise_append.mp hsafe).2.2
  refine ⟨_, run_moves hdone m, runMoves_of_not_mem (fun q hq => ?_) m.regs⟩
  rw [hy]
  exact (hkeep q hq p List.mem_cons_self).2

end CilMmix
