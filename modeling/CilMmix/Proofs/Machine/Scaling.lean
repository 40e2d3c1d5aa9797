import CilMmix.Proofs.Machine.Words

/-! Multiplying an index by the distance between elements: not at all, by a shift, or by a product with a
number that may have to go through a scratch register. All of them give the same product of words. -/

namespace CilMmix

theorem shiftLeft_eq_mul (a : Word) (k : Nat) : a <<< k = a * BitVec.ofNat 64 (2 ^ k) := by
  apply BitVec.eq_of_toNat_eq
  simp [Nat.shiftLeft_eq, Nat.mul_mod_mod]

theorem run_slu (r : Reg) {k : Nat} (hk : k < 64) (m : Machine) :
    run [.ins .slu [.reg r, .reg r, .imm k]] m =
      (m.set r.index.val (m.regs r.index.val * BitVec.ofNat 64 (2 ^ k)), .fall) := by
  have hcount : (BitVec.ofNat 64 k).toNat = k := by
    rw [BitVec.toNat_ofNat]
    omega
  rw [run, Line.act_binary (f := fun a b => a <<< b.toNat) rfl rfl rfl, hcount, shiftLeft_eq_mul]
  rfl

theorem eq_shiftLeft_log2_iff {n : Nat} : n = 1 <<< n.log2 ↔ n.isPowerOfTwo := by
  rw [Nat.one_shiftLeft]
  constructor
  · intro h
    exact ⟨n.log2, h⟩
  · rintro ⟨k, rfl⟩
    rw [Nat.log2_two_pow]

/-- A power of two needs no product. -/
theorem run_scale_of_power {stride : Nat} (h : stride.isPowerOfTwo) (hlt : stride < 2 ^ 64) (r : Reg)
    (scratch : Nat) : ∃ lines, scale r stride scratch = .ok lines ∧ ∀ m : Machine,
      run lines m = (m.set r.index.val (m.regs r.index.val * BitVec.ofNat 64 stride), .fall) := by
  by_cases hle : stride ≤ 1
  · obtain rfl : stride = 1 := Nat.le_antisymm hle (Nat.pos_of_isPowerOfTwo h)
    refine ⟨[], rfl, fun m => ?_⟩
    rw [BitVec.mul_one, Machine.set_regs_self]
    rfl
  · have hlog : stride.log2 < 64 := (Nat.log2_lt (by omega)).mpr hlt
    have heq := eq_shiftLeft_log2_iff.mpr h
    refine ⟨_, by rw [scale, if_neg hle, if_pos heq], fun m => ?_⟩
    rw [run_slu r hlog m, ← Nat.one_shiftLeft, ← heq]

theorem immediate_of_reg (value : Nat) (scratch : Reg) :
    ∃ before operand, immediate value scratch.index.val = .ok (before, operand) := by
  have hreg : Reg.ofIndex scratch.index.val = .ok scratch := Reg.ofIndex_eq_ok.mpr rfl
  unfold immediate
  split
  · exact ⟨_, _, rfl⟩
  · exact ⟨_, _, by rw [hreg]; rfl⟩

/-- Any other number is a factor of a product, after it has been loaded if it has to be. -/
theorem run_scale_of_product {stride : Nat} (hgt : 1 < stride) (h : ¬ stride.isPowerOfTwo) {r scratch : Reg}
    (hne : scratch ≠ r) : ∃ lines, scale r stride scratch.index.val = .ok lines ∧ ∀ m : Machine,
      run lines m = ((if stride ≤ maxImmediate then m
        else m.set scratch.index.val (.ofNat 64 stride)).setPair r.index.val "rH"
          (m.regs r.index.val * .ofNat 64 stride,
            .ofNat 64 ((m.regs r.index.val).toNat * (BitVec.ofNat 64 stride).toNat / 2 ^ 64)), .fall) := by
  obtain ⟨before, operand, himmediate⟩ := immediate_of_reg stride scratch
  refine ⟨before ++ [.ins .mulu [.reg r, .reg r, operand]], ?_, fun m => ?_⟩
  · rw [scale, if_neg (Nat.not_le_of_lt hgt), if_neg (mt eq_shiftLeft_log2_iff.mp h), himmediate]
    rfl
  · obtain ⟨m', hrun, hoperand, hm'⟩ := run_immediate_eq himmediate m
    have hindex : r.index.val ≠ scratch.index.val := fun he => hne (congrArg Reg.mk (Fin.ext he.symm))
    have hr : m'.regs r.index.val = m.regs r.index.val := by
      rw [hm']
      split
      · rfl
      · exact Function.update_of_ne hindex ..
    rw [run_append hrun, run, Line.act_paired rfl rfl hoperand, hr, hm']
    rfl

/-- The lines for a stride are always found, and they multiply the index by it; a stride of zero counts as
one. No other general register changes but the scratch register, and that only for the sake of a number
that neither fits an operand nor is a power of two. -/
theorem scale_multiplies (r scratch : Reg) (hne : scratch ≠ r) (stride : UInt64) :
    ∃ lines, scale r stride.toNat scratch.index.val = .ok lines ∧ ∀ m : Machine, ∃ m',
      run lines m = (m', .fall) ∧
      (m'.regs r.index.val).toNat = (m.regs r.index.val).toNat * max stride.toNat 1 % 2 ^ 64 ∧
      (∀ k ≠ r.index.val, m'.regs k ≠ m.regs k →
        k = scratch.index.val ∧ 255 < stride.toNat ∧ ¬ stride.toNat.isPowerOfTwo) ∧
      ∀ name ≠ "rH", m'.special name = m.special name := by
  have hproduct (w : Word) {n : Nat} (hn : max stride.toNat 1 = n) :
      (w * BitVec.ofNat 64 n).toNat = w.toNat * max stride.toNat 1 % 2 ^ 64 := by
    rw [hn, BitVec.toNat_mul, BitVec.toNat_ofNat, Nat.mul_mod_mod]
  by_cases hzero : stride.toNat = 0
  · refine ⟨[], by rw [hzero]; rfl, fun m => ⟨m, rfl, ?_, ?_, fun _ _ => rfl⟩⟩
    · rw [← hproduct _ (n := 1) (by omega), BitVec.mul_one]
    · exact fun k _ hk => absurd rfl hk
  by_cases hpower : stride.toNat.isPowerOfTwo
  · obtain ⟨lines, hlines, hrun⟩ := run_scale_of_power hpower stride.toNat_lt r scratch.index.val
    refine ⟨lines, hlines, fun m => ⟨_, hrun m, ?_, ?_, fun _ _ => rfl⟩⟩
    · rw [Machine.set_regs, Function.update_self, hproduct _ (by omega)]
    · exact fun k hk hchange => absurd (Function.update_of_ne hk ..) hchange
  · have hgt : 1 < stride.toNat := by
      have hone : stride.toNat ≠ 1 := fun he => hpower (he ▸ Nat.isPowerOfTwo_one)
      omega
    obtain ⟨lines, hlines, hrun⟩ := run_scale_of_product hgt hpower hne
    refine ⟨lines, hlines, fun m => ⟨_, hrun m, ?_, fun k hk hchange => ?_, fun name hname => ?_⟩⟩
    · rw [Machine.setPair_regs, Function.update_self, hproduct _ (by omega)]
    · rw [Machine.setPair_regs, Function.update_of_ne hk] at hchange
      split at hchange
      · exact absurd rfl hchange
      · rename_i hlarge
        have hscratch : k = scratch.index.val := by
          by_contra hother
          exact hchange (Function.update_of_ne hother ..)
        exact ⟨hscratch, Nat.lt_of_not_le hlarge, hpower⟩
    · rw [Machine.setPair_special, Function.update_of_ne hname]
      split <;> rfl

theorem scale_multiplies_thousand : scale ⟨1⟩ 1000 2 =
      .ok [.ins .setl [.reg ⟨2⟩, .imm 1000], .ins .mulu [.reg ⟨1⟩, .reg ⟨1⟩, .reg ⟨2⟩]] ∧
    (⟨2⟩ : Reg) ≠ ⟨1⟩ ∧ ∃ lines, scale ⟨1⟩ 1000 2 = .ok lines ∧ ∀ m : Machine, ∃ m',
      run lines m = (m', .fall) ∧ (m'.regs 1).toNat = (m.regs 1).toNat * 1000 % 2 ^ 64 ∧
      (∀ k ≠ 1, m'.regs k ≠ m.regs k → k = 2 ∧ 255 < 1000 ∧ ¬ (1000).isPowerOfTwo) ∧
      ∀ name ≠ "rH", m'.special name = m.special name :=
  ⟨rfl, by decide, scale_multiplies ⟨1⟩ ⟨2⟩ (by decide) 1000⟩

end CilMmix
