import CilMmix.Assembly.Constant
import CilMmix.Proofs.Machine.Basic

/-! Running the lines that load a constant: the register holds it afterwards. -/

namespace CilMmix

theorem Machine.set_set (m : Machine) (index : Nat) (a b : Word) :
    (m.set index a).set index b = m.set index b := by
  simp [set]

theorem Machine.set_regs_self (m : Machine) (k : Nat) : m.set k (m.regs k) = m := by
  rw [Machine.set, Function.update_eq_self]

/-- Sixteen bits of a word, put back in their place. -/
theorem getLsbD_wyde (value : UInt64) (k : Nat) {i : Nat} (hi : i < 64) :
    (BitVec.ofNat 64 (wyde value k) <<< (16 * k)).getLsbD i =
      (decide (16 * k ≤ i ∧ i < 16 * k + 16) && value.toBitVec.getLsbD i) := by
  have hw : wyde value k = value.toNat >>> (16 * k) % 2 ^ 16 := rfl
  have hbit : value.toBitVec.getLsbD i = value.toNat.testBit i := rfl
  rw [BitVec.getLsbD_shiftLeft, BitVec.getLsbD_ofNat, hw, Nat.testBit_mod_two_pow,
    Nat.testBit_shiftRight, hbit]
  by_cases hge : 16 * k ≤ i
  · have he : 16 * k + (i - 16 * k) = i := by omega
    have hi' : i - 16 * k < 64 := by omega
    by_cases hlt : i < 16 * k + 16
    · have hsub : i - 16 * k < 16 := by omega
      simp [he, hi, hge, hlt, hsub, hi']
    · have hsub : ¬ i - 16 * k < 16 := by omega
      simp [hlt, hsub]
  · simp [hge]

/-- A word is the union of its four parts. -/
theorem toBitVec_eq_wydes (value : UInt64) :
    value.toBitVec = BitVec.ofNat 64 (wyde value 0) ||| BitVec.ofNat 64 (wyde value 1) <<< 16 |||
      BitVec.ofNat 64 (wyde value 2) <<< 32 ||| BitVec.ofNat 64 (wyde value 3) <<< 48 := by
  refine BitVec.eq_of_getLsbD_eq fun i hi => ?_
  have h0 := getLsbD_wyde value 0 hi
  have h1 := getLsbD_wyde value 1 hi
  have h2 := getLsbD_wyde value 2 hi
  have h3 := getLsbD_wyde value 3 hi
  simp only [Nat.mul_zero, BitVec.shiftLeft_zero, Nat.mul_one, Nat.reduceMul] at h0 h1 h2 h3
  simp only [BitVec.getLsbD_or, h0, h1, h2, h3]
  cases value.toBitVec.getLsbD i with
  | false => simp
  | true =>
    simp
    omega

/-- What a part adds to the register. -/
def partWord (p : (Opcode × Opcode) × Nat) : Word :=
  (p.1.1.update?.getD fun _ v => v) 0 (BitVec.ofNat 64 p.2)

/-- The two operations for a part agree on where it goes. -/
theorem act_part (m : Machine) (r : Reg) {p : (Opcode × Opcode) × Nat} (h : p.1 ∈ wydeOps) :
    (Line.ins p.1.1 [.reg r, .imm p.2]).act m = .go (m.set r.index.val (partWord p)) ∧
    (Line.ins p.1.2 [.reg r, .imm p.2]).act m =
      .go (m.set r.index.val (m.regs r.index.val ||| partWord p)) := by
  obtain ⟨ops, n⟩ := p
  simp only [wydeOps, List.mem_cons, List.not_mem_nil, or_false] at h
  rcases h with rfl | rfl | rfl | rfl <;> exact ⟨rfl, rfl⟩

theorem run_parts (m : Machine) (r : Reg) {parts : List ((Opcode × Opcode) × Nat)}
    (h : ∀ p ∈ parts, p.1 ∈ wydeOps) (w : Word) :
    run (parts.map fun p => .ins p.1.2 [.reg r, .imm p.2]) (m.set r.index.val w) =
      (m.set r.index.val (parts.foldl (fun a p => a ||| partWord p) w), .fall) := by
  induction parts generalizing w with
  | nil => rfl
  | cons p parts ih =>
    have hp := (act_part (m.set r.index.val w) r (h p List.mem_cons_self)).2
    have hrest := ih (fun q hq => h q (List.mem_cons_of_mem _ hq)) (w ||| partWord p)
    rw [List.map_cons, run, hp]
    simpa only [Machine.set_regs, Function.update_self, Machine.set_set, List.foldl_cons] using hrest

/-- Parts that are zero add nothing. -/
theorem foldl_filter_parts (parts : List ((Opcode × Opcode) × Nat)) (h : ∀ p ∈ parts, p.1 ∈ wydeOps)
    (w : Word) : (parts.filter fun p => p.2 != 0).foldl (fun a p => a ||| partWord p) w =
      parts.foldl (fun a p => a ||| partWord p) w := by
  induction parts generalizing w with
  | nil => rfl
  | cons p parts ih =>
    have hrest := ih fun q hq => h q (List.mem_cons_of_mem _ hq)
    by_cases hz : p.2 = 0
    · have hzero : partWord p = 0 := by
        have hp := h p List.mem_cons_self
        obtain ⟨ops, n⟩ := p
        simp only at hz
        subst hz
        simp only [wydeOps, List.mem_cons, List.not_mem_nil, or_false] at hp
        rcases hp with rfl | rfl | rfl | rfl <;> rfl
      simp [hz, hzero, hrest]
    · simp [hz, hrest]

theorem neg_sub_eq (value : UInt64) (h : 0 < value.toNat) :
    0#64 - BitVec.ofNat 64 (UInt64.size - value.toNat) = value.toBitVec := by
  have hlt := value.toNat_lt
  apply BitVec.eq_of_toNat_eq
  simp only [BitVec.toNat_sub, BitVec.toNat_ofNat, UInt64.toNat_toBitVec, UInt64.size]
  omega

theorem run_loadConstant (r : Reg) (value : UInt64) (m : Machine) :
    run (loadConstant r value) m = (m.set r.index.val value.toBitVec, .fall) := by
  unfold loadConstant
  split
  · rename_i hlarge
    have hpos : 0 < value.toNat := by
      simp only [UInt64.size, maxWyde] at hlarge
      omega
    have hrun := m.set_set r.index.val (BitVec.ofNat 64 (UInt64.size - value.toNat)) value.toBitVec
    rw [← hrun, ← neg_sub_eq value hpos]
    simp [run, Line.ins, Line.act, Opcode.act, Opcode.combine, Opcode.update?, Opcode.binary?, Operand.value]
  · let all := wydeOps.mapIdx fun i ops => (ops, wyde value i)
    have hall : ∀ p ∈ all, p.1 ∈ wydeOps := by
      intro p hp
      obtain ⟨i, hi, rfl⟩ := List.mem_mapIdx.mp hp
      exact List.getElem_mem hi
    have htotal : all.foldl (fun a p => a ||| partWord p) 0#64 = value.toBitVec := by
      rw [toBitVec_eq_wydes]
      exact congrArg (fun w => w ||| _ ||| _ ||| _) (BitVec.zero_or)
    rw [← foldl_filter_parts all hall] at htotal
    have hparts : ∀ p ∈ all.filter (fun p => p.2 != 0), p.1 ∈ wydeOps :=
      fun p hp => hall p (List.mem_filter.mp hp).1
    dsimp only
    split
    · rename_i hnone
      rw [show all.filter (fun p => p.2 != 0) = [] from hnone] at htotal
      rw [← htotal]
      rfl
    · rename_i first second n parts hsome
      rw [show all.filter (fun p => p.2 != 0) = _ from hsome] at htotal hparts
      have hfirst := (act_part m r (hparts _ List.mem_cons_self)).1
      have hrest := run_parts m r (fun p hp => hparts p (List.mem_cons_of_mem _ hp))
        (partWord ((first, second), n))
      rw [List.foldl_cons, BitVec.zero_or] at htotal
      rw [run, hfirst, ← htotal]
      exact hrest

end CilMmix
