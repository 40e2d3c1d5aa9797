import CilMmix.Assembly.Constant

/-! What the code for a constant is made of: operations that write one sixteen-bit part of the register,
and next to them only the one that clears it and the one that negates it. -/

namespace CilMmix

/-- The operations that set or add one part. -/
def partCodes : List Opcode := wydeOps.flatMap fun p => [p.1, p.2]

theorem wyde_le (value : UInt64) (i : Nat) : wyde value i ≤ maxWyde :=
  Nat.le_of_lt_succ (Nat.mod_lt _ (by decide))

variable {r : Reg} {value : UInt64} {l : Line}

theorem mem_loadConstant (h : l ∈ loadConstant r value) :
    (∃ code ∈ partCodes, ∃ n ≤ maxWyde, l = .ins code [.reg r, .imm n]) ∨
      l = .ins .set [.reg r, .imm 0] ∨
      UInt64.size - maxWyde ≤ value.toNat ∧ l = .ins .neg [.reg r, .imm 0, .reg r] := by
  unfold loadConstant at h
  split at h
  · rename_i hneg
    have hlt := value.toNat_lt_size
    simp only [List.mem_cons, List.not_mem_nil, or_false] at h
    rcases h with rfl | rfl
    · exact .inl ⟨.setl, by decide, _, by omega, rfl⟩
    · exact .inr (.inr ⟨hneg, rfl⟩)
  · dsimp only at h
    split at h
    · exact .inr (.inl (List.mem_singleton.mp h))
    · rename_i first second n parts hparts
      -- Every part is one of the four, with the operations of the table.
      have hmem : ∀ p ∈ ((first, second), n) :: parts, p.1 ∈ wydeOps ∧ p.2 ≤ maxWyde := by
        intro p hp
        rw [← hparts, List.mem_filter, List.mem_mapIdx] at hp
        obtain ⟨⟨i, hi, rfl⟩, -⟩ := hp
        exact ⟨List.getElem_mem hi, wyde_le value i⟩
      obtain ⟨⟨hfirst, hn⟩, hrest⟩ := List.forall_mem_cons.mp hmem
      rcases List.mem_cons.mp h with rfl | h
      · exact .inl ⟨first, List.mem_flatMap.mpr ⟨_, hfirst, by simp⟩, n, hn, rfl⟩
      · obtain ⟨p, hp, rfl⟩ := List.mem_map.mp h
        obtain ⟨hp, hle⟩ := hrest p hp
        exact .inl ⟨p.1.2, List.mem_flatMap.mpr ⟨_, hp, by simp⟩, p.2, hle, rfl⟩

theorem loadConstant_ins (h : l ∈ loadConstant r value) : ∃ code operands, l = .ins code operands := by
  rcases mem_loadConstant h with ⟨code, -, n, -, rfl⟩ | rfl | ⟨-, rfl⟩ <;> exact ⟨_, _, rfl⟩

end CilMmix
