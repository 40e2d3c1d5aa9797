import CilMmix.Proofs.Simulation.Return

/-! The code of a call. The arguments are moved up by one register, so that the one below them is free
for the hole. -/

namespace CilMmix

theorem Element.totalWords_congr {xs ys : List Element}
    (h : xs.map (·.size.words) = ys.map (·.size.words)) : totalWords xs = totalWords ys := by
  have hsum : ∀ elems : List Element, totalWords elems = (elems.map (·.size.words)).sum := by
    intro elems
    induction elems with
    | nil => rfl
    | cons e elems ih => rw [totalWords, List.map_cons, List.sum_cons, ih]
  rw [hsum, hsum, h]

/-- Values of the same widths, in the same order, hold the same words. -/
theorem Tiled.map_read_eq {a b : Nat} {xs ys : List Element} (hx : Tiled a xs) (hy : Tiled b ys)
    (hwords : xs.map (·.size.words) = ys.map (·.size.words)) {r r' : Registers}
    (h : ∀ k, k < Element.totalWords xs → r (a + k) = r' (b + k)) :
    xs.map (·.read r) = ys.map (·.read r') := by
  induction xs generalizing a b ys with
  | nil =>
    cases ys with
    | nil => rfl
    | cons => cases hwords
  | cons x xs ih =>
    cases ys with
    | nil => cases hwords
    | cons y ys =>
      obtain ⟨hxo, hx⟩ := hx
      obtain ⟨hyo, hy⟩ := hy
      obtain ⟨hw, hwords⟩ := List.cons.inj hwords
      simp only at hw
      simp only [Element.totalWords] at h
      rw [List.map_cons, List.map_cons, ih hx hy hwords fun k hk => ?_]
      · congr 1
        rw [Element.read, Element.read, ← hw, hxo, hyo]
        exact Registers.read_shift fun k hk => h k (by omega)
      · rw [Nat.add_assoc, Nat.add_assoc, ← hw]
        exact h (x.size.words + k) (by omega)

namespace Lower

theorem pops_ok {α : Type} {l : List α} {s t : LowerState} {u : PUnit}
    (h : (l.forM fun _ => discard pop : Lower PUnit) s = .ok (u, t)) :
    l.length ≤ s.stack.elems.length ∧ t = s.withElems (s.stack.elems.drop l.length) := by
  induction l generalizing s with
  | nil =>
    obtain ⟨-, rfl⟩ := pure_ok.mp h
    exact ⟨Nat.zero_le _, rfl⟩
  | cons a l ih =>
    obtain ⟨_, s₁, hpop, hrest⟩ := bind_ok.mp h
    change (pop >>= fun _ => (pure ⟨⟩ : Lower PUnit)) s = .ok (_, s₁) at hpop
    obtain ⟨_, s₂, hpop, hs⟩ := bind_ok.mp hpop
    obtain ⟨-, rfl⟩ := pure_ok.mp hs
    obtain ⟨e, rest, helems, -, rfl⟩ := pop_ok.mp hpop
    obtain ⟨hle, rfl⟩ := ih hrest
    rw [LowerState.withElems_elems] at hle
    rw [helems]
    exact ⟨Nat.succ_le_succ hle, rfl⟩

theorem call_ok {origin : String} {ref : MethodRef} {s t : LowerState} {code : List Line}
    (h : call origin ref s = .ok (code, t)) : ∃ moves, ∃ hole : Reg,
      code = moves ++ [.ins .pushj [.reg hole, .sym (mangle ref.name)]] ∧
      ref.params.length ≤ s.stack.elems.length ∧
      hole.index.val = Shape.top s.stack.base (shape (s.stack.elems.drop ref.params.length)) ∧
      Moves (copyPairs hole.index.val (hole.index.val + 1)
        (Shape.top s.stack.base (shape s.stack.elems) - hole.index.val)) moves := by
  simp only [call, bind_ok, pure_ok, top_ok, lift_ok, Reg.ofIndex_eq_ok] at h
  obtain ⟨_, s, ⟨rfl, rfl⟩, _, s₁, hpops, _, _, ⟨rfl, rfl⟩, moves, _, ⟨hmoves, rfl⟩, hole, _,
    ⟨hhole, rfl⟩, _, _, -, rfl, rfl⟩ := h
  obtain ⟨hle, rfl⟩ := pops_ok hpops
  refine ⟨moves, hole, rfl, hle, hhole, ?_⟩
  rw [hhole]
  exact copyWords_ok hmoves

end Lower

end CilMmix
