import Mathlib.Algebra.BigOperators.Fin
import Mathlib.Tactic.FinCases
import CilMmix.Proofs.Assembly.Parts
import CilMmix.Proofs.Machine.Constant

/-! How short the code for a constant can be. An operation that sets or adds one sixteen-bit part of a
register fills at most one part that was empty, so no code of such operations is shorter than the number
of parts that are not zero. A constant is loaded by that many lines, or by fewer. -/

namespace CilMmix

/-- The sixteen-bit part that an operation sets, or adds to the others. -/
def Opcode.part? : Opcode → Option (Fin 4)
  | set | setl | orl => some 0
  | setml | orml => some 1
  | setmh | ormh => some 2
  | seth | orh => some 3
  | _ => none

/-- The parts of a word that are not zero. -/
def Word.filled (w : Word) : Finset (Fin 4) := Finset.univ.filter fun i => wyde ⟨w⟩ i.val ≠ 0

theorem Word.mem_filled {w : Word} {i : Fin 4} :
    i ∈ w.filled ↔ ∃ j, 16 * i.val ≤ j ∧ j < 16 * i.val + 16 ∧ w.getLsbD j = true := by
  have hbit : ∀ k, (wyde ⟨w⟩ i.val).testBit k = (decide (k < 16) && w.getLsbD (16 * i.val + k)) := by
    intro k
    have hw : wyde ⟨w⟩ i.val = w.toNat >>> (16 * i.val) % 2 ^ 16 := rfl
    rw [hw, Nat.testBit_mod_two_pow, Nat.testBit_shiftRight]
    rfl
  simp only [filled, Finset.mem_filter, Finset.mem_univ, true_and]
  constructor
  · intro h
    obtain ⟨k, hk⟩ := Nat.exists_testBit_of_ne_zero h
    rw [hbit, Bool.and_eq_true, decide_eq_true_eq] at hk
    exact ⟨16 * i.val + k, by omega, by omega, hk.2⟩
  · rintro ⟨j, hle, hlt, hj⟩ hzero
    have hk := hbit (j - 16 * i.val)
    have hback : 16 * i.val + (j - 16 * i.val) = j := by omega
    have hsmall : j - 16 * i.val < 16 := by omega
    rw [hzero, hback, hj, Nat.zero_testBit] at hk
    simp [hsmall] at hk

/-- A number of sixteen bits in one part has no bits in the others. -/
theorem getLsbD_part {n j k : Nat} (hn : n ≤ maxWyde) (hj : j < 16 * k ∨ 16 * k + 16 ≤ j) :
    (BitVec.ofNat 64 n <<< (16 * k)).getLsbD j = false := by
  rw [BitVec.getLsbD_shiftLeft, BitVec.getLsbD_ofNat]
  rcases hj with hj | hj
  · simp [hj]
  · have hpow : 2 ^ 16 ≤ 2 ^ (j - 16 * k) := Nat.pow_le_pow_right (by decide) (by omega)
    have hlt : n < 2 ^ (j - 16 * k) := Nat.lt_of_lt_of_le (Nat.lt_succ_of_le hn) hpow
    simp [Nat.testBit_lt_two_pow hlt]

theorem Opcode.update_of_part {code : Opcode} {k : Fin 4} (h : code.part? = some k) :
    ∃ f, code.update? = some f ∧ ∀ a v : Word,
      f a v = v <<< (16 * k.val) ∨ f a v = a ||| v <<< (16 * k.val) := by
  cases code <;> cases h
  case set | setl => exact ⟨_, rfl, fun a v => .inl (BitVec.shiftLeft_zero v).symm⟩
  case setml | setmh | seth => exact ⟨_, rfl, fun _ _ => .inl rfl⟩
  case orl => exact ⟨_, rfl, fun a v => .inr (congrArg (a ||| ·) (BitVec.shiftLeft_zero v).symm)⟩
  case orml | ormh | orh => exact ⟨_, rfl, fun _ _ => .inr rfl⟩

/-- An operation fills no part but its own. -/
theorem Word.filled_update {a b v : Word} {n : Nat} {k : Fin 4} (hn : n ≤ maxWyde)
    (hv : v = BitVec.ofNat 64 n <<< (16 * k.val)) (hb : b = v ∨ b = a ||| v) :
    b.filled ⊆ insert k a.filled := by
  intro i hi
  by_cases hik : i = k
  · exact hik ▸ Finset.mem_insert_self ..
  · obtain ⟨j, hle, hlt, hj⟩ := mem_filled.mp hi
    have hne : i.val ≠ k.val := fun he => hik (Fin.ext he)
    have hpart : v.getLsbD j = false := hv ▸ getLsbD_part hn (by omega)
    refine Finset.mem_insert_of_mem (mem_filled.mpr ⟨j, hle, hlt, ?_⟩)
    rcases hb with rfl | rfl
    · simp [hpart] at hj
    · simpa [hpart] using hj

theorem Line.act_update {code : Opcode} {f : Word → Word → Word} (h : code.update? = some f)
    (m : Machine) (x : Reg) (n : Nat) : (Line.ins code [.reg x, .imm n]).act m =
      .go (m.set x.index.val (f (m.regs x.index.val) (BitVec.ofNat 64 n))) := by
  cases code <;> simp_all [ins, act, Opcode.act, Opcode.update?, Operand.value]

/-- A line that sets a part of a register, or adds one. -/
def Line.WritesPart (r : Reg) (l : Line) : Prop :=
  ∃ code k n, Opcode.part? code = some k ∧ n ≤ maxWyde ∧ l = .ins code [.reg r, .imm n]

theorem Line.WritesPart.act {r : Reg} {l : Line} (h : l.WritesPart r) (m : Machine) :
    ∃ w : Word, l.act m = .go (m.set r.index.val w) ∧
      w.filled.card ≤ (Word.filled (m.regs r.index.val)).card + 1 := by
  obtain ⟨code, k, n, hcode, hn, rfl⟩ := h
  obtain ⟨f, hf, hparts⟩ := Opcode.update_of_part hcode
  refine ⟨_, Line.act_update hf m r n, ?_⟩
  have hsub := Word.filled_update hn rfl (hparts (m.regs r.index.val) (BitVec.ofNat 64 n))
  exact (Finset.card_le_card hsub).trans (Finset.card_insert_le ..)

theorem run_writesPart {r : Reg} {lines : List Line} (h : ∀ l ∈ lines, l.WritesPart r) (m : Machine) :
    (Word.filled ((run lines m).1.regs r.index.val)).card ≤
      (Word.filled (m.regs r.index.val)).card + lines.length := by
  induction lines generalizing m with
  | nil => exact Nat.le_refl _
  | cons l lines ih =>
    obtain ⟨hl, hrest⟩ := List.forall_mem_cons.mp h
    obtain ⟨w, hact, hcard⟩ := hl.act m
    have hrun := ih hrest (m.set r.index.val w)
    rw [Machine.set_regs, Function.update_self] at hrun
    rw [run, hact, List.length_cons]
    dsimp only
    omega

/-- Lines that write parts of a register and leave a word there, whatever was in it before. -/
def Assembles (r : Reg) (w : Word) (lines : List Line) : Prop :=
  (∀ l ∈ lines, l.WritesPart r) ∧ ∀ m : Machine, (run lines m).1.regs r.index.val = w

theorem Assembles.length_pos {r : Reg} {w : Word} {lines : List Line} (h : Assembles r w lines) :
    0 < lines.length := by
  -- Without a line the register keeps what it had, and that may be another word.
  rw [List.length_pos_iff]
  rintro rfl
  have hother := h.2 ⟨fun _ => w + 1, fun _ => 0⟩
  simp [run] at hother

theorem Assembles.card_le {r : Reg} {w : Word} {lines : List Line} (h : Assembles r w lines) :
    w.filled.card ≤ lines.length := by
  have hrun := run_writesPart h.1 ⟨fun _ => 0, fun _ => 0⟩
  have hempty : Word.filled 0 = ∅ := by decide
  rw [h.2] at hrun
  simpa only [hempty, Finset.card_empty, Nat.zero_add] using hrun

theorem card_filled (value : UInt64) : (Word.filled value.toBitVec).card =
    ((wydeOps.mapIdx fun i ops => (ops, wyde value i)).filter fun p => p.2 != 0).length := by
  rw [Word.filled, Finset.card_filter, Fin.sum_univ_four, ← List.countP_eq_length_filter]
  have hswap : ∀ a b c d : Nat, a + b + c + d = 0 + d + c + b + a := by omega
  simp only [wydeOps, List.mapIdx_cons, List.mapIdx_nil, List.countP_cons, List.countP_nil, bne_iff_ne]
  exact hswap ..

theorem card_filled_of_negative {value : UInt64} (h : UInt64.size - maxWyde ≤ value.toNat) :
    (Word.filled value.toBitVec).card = 4 := by
  have hlt := value.toNat_lt
  rw [UInt64.size, maxWyde] at h
  have hall : Word.filled value.toBitVec = Finset.univ := by
    refine Finset.filter_true_of_mem fun i _ => ?_
    change value.toNat >>> (16 * i.val) % 0x10000 ≠ 0
    rw [Nat.shiftRight_eq_div_pow]
    fin_cases i <;> dsimp only <;> omega
  rw [hall]
  rfl

theorem length_loadConstant (r : Reg) (value : UInt64) : (loadConstant r value).length =
    if UInt64.size - maxWyde ≤ value.toNat then 2 else max 1 (Word.filled value.toBitVec).card := by
  rw [card_filled, loadConstant]
  split
  · rfl
  · dsimp only
    split
    · rename_i hnone
      rw [hnone]
      rfl
    · rename_i hsome
      rw [hsome]
      simp

/-- Unless it is a small negative number, a constant is put together from parts. -/
theorem loadConstant_writesPart {value : UInt64} (h : ¬ UInt64.size - maxWyde ≤ value.toNat) (r : Reg) :
    ∀ l ∈ loadConstant r value, l.WritesPart r := by
  have hcodes : ∀ code ∈ partCodes, code.part?.isSome := by decide
  intro l hl
  rcases mem_loadConstant hl with ⟨code, hcode, n, hn, rfl⟩ | rfl | ⟨hneg, -⟩
  · obtain ⟨k, hk⟩ := Option.isSome_iff_exists.mp (hcodes code hcode)
    exact ⟨code, k, n, hk, hn, rfl⟩
  · exact ⟨.set, 0, 0, rfl, Nat.zero_le _, rfl⟩
  · exact absurd hneg h

/-- The code for a constant leaves it in the register and all others alone, and no code that writes parts
of the register does so in fewer lines. It is such code itself, or takes two lines in place of four. -/
theorem loadConstant_shortest (r : Reg) (value : UInt64) :
    (∀ m : Machine, ∃ m', run (loadConstant r value) m = (m', .fall) ∧
      m'.regs r.index.val = value.toBitVec ∧ (∀ k ≠ r.index.val, m'.regs k = m.regs k) ∧
      m'.special = m.special) ∧
    (∀ lines, Assembles r value.toBitVec lines → (loadConstant r value).length ≤ lines.length) ∧
    (Assembles r value.toBitVec (loadConstant r value) ∨ (loadConstant r value).length = 2 ∧
      ∀ lines, Assembles r value.toBitVec lines → 4 ≤ lines.length) := by
  have hlength := length_loadConstant r value
  refine ⟨fun m => ?_, fun lines h => ?_, ?_⟩
  · refine ⟨_, run_loadConstant r value m, Function.update_self .., fun k hk => ?_, rfl⟩
    exact Function.update_of_ne hk ..
  · have hpos := h.length_pos
    have hcard := h.card_le
    split at hlength
    · have hfour := card_filled_of_negative ‹_›
      omega
    · omega
  · by_cases hneg : UInt64.size - maxWyde ≤ value.toNat
    · rw [if_pos hneg] at hlength
      refine .inr ⟨hlength, fun lines h => ?_⟩
      exact card_filled_of_negative hneg ▸ h.card_le
    · refine .inl ⟨loadConstant_writesPart hneg r, fun m => ?_⟩
      rw [run_loadConstant]
      exact Function.update_self ..

end CilMmix
