import Mathlib.Algebra.Group.Int.Defs
import Mathlib.Algebra.Group.Nat.Defs
import CilMmix.Proofs.Assembly.Piece
import CilMmix.Proofs.Lowering.Steps
import CilMmix.Proofs.Machine.Basic

/-! Division. A signed division of the machine rounds down and leaves a remainder with the sign of the
divisor; that of the bytecode rounds toward zero. The code of `div` and `rem` is one division of the
machine, so it gives what the bytecode asks for when nothing is left or the signs are the same, and only
then. Unsigned division is the same on both sides. -/

namespace CilMmix

namespace Arith

/-- The operation that divides, for quotients and remainders. -/
def divider? : Arith → Option Opcode
  | div | rem => some .div
  | divUn | remUn => some .divu
  | _ => none

def isRemainder : Arith → Bool
  | rem | remUn => true
  | _ => false

/-- What the bytecode asks for. -/
def Truncated (x y w : Word) : Arith → Prop
  | div => w.toInt = x.toInt.tdiv y.toInt
  | rem => w.toInt = x.toInt.tmod y.toInt
  | divUn => w.toNat = x.toNat / y.toNat
  | remUn => w.toNat = x.toNat % y.toNat
  | _ => False

/-- What the machine computes. -/
def Floored (x y w : Word) : Arith → Prop
  | div => w.toInt = x.toInt.fdiv y.toInt
  | rem => w.toInt = x.toInt.fmod y.toInt
  | divUn => w.toNat = x.toNat / y.toNat
  | remUn => w.toNat = x.toNat % y.toNat
  | _ => False

end Arith

theorem fdiv_eq_tdiv_iff {a b : Int} (hb : b ≠ 0) :
    a.fdiv b = a.tdiv b ↔ b ∣ a ∨ (a < 0 ↔ b < 0) := by
  rw [Int.fdiv_eq_tdiv]
  rcases Int.lt_or_gt_of_ne hb with h | h
  · rw [Int.sign_eq_neg_one_of_neg h]
    split
    · simp_all
    · simp_all
      omega
  · rw [Int.sign_eq_one_of_pos h]
    split
    · simp_all
    · simp_all
      omega

/-- The remainders are the same when the quotients are. -/
theorem fmod_eq_tmod_iff {a b : Int} (hb : b ≠ 0) :
    a.fmod b = a.tmod b ↔ b ∣ a ∨ (a < 0 ↔ b < 0) := by
  have hf := Int.mul_fdiv_add_fmod a b
  have ht := Int.mul_tdiv_add_tmod a b
  rw [← fdiv_eq_tdiv_iff hb]
  constructor
  · intro h
    exact Int.eq_of_mul_eq_mul_left hb (by omega)
  · intro h
    rw [h] at hf
    omega

section

variable {x y : Word}

/-- A quotient by a positive number is no larger than the dividend. -/
theorem ediv_bounds {n d : Int} (hlow : -2 ^ 63 ≤ n) (hd : 0 < d) (hhigh : n < 2 ^ 63 * d) :
    -2 ^ 63 ≤ n / d ∧ n / d < 2 ^ 63 := by
  refine ⟨Int.le_ediv_of_mul_le hd ?_, Int.ediv_lt_of_lt_mul hd hhigh⟩
  omega

theorem toInt_fdiv (hy : y ≠ 0) (hover : ¬(x.toInt = -2 ^ 63 ∧ y.toInt = -1)) :
    (BitVec.ofInt 64 (x.toInt.fdiv y.toInt)).toInt = x.toInt.fdiv y.toInt := by
  have hzero : y.toInt ≠ 0 := fun h => hy (BitVec.toInt_inj.mp (h.trans rfl))
  have hx := BitVec.le_toInt x
  have hx' := BitVec.toInt_lt (x := x)
  have hy' := BitVec.le_toInt y
  have hbounds : -2 ^ 63 ≤ x.toInt.fdiv y.toInt ∧ x.toInt.fdiv y.toInt < 2 ^ 63 := by
    rcases Int.lt_or_gt_of_ne hzero with h | h
    · rw [← Int.neg_fdiv_neg, Int.fdiv_eq_ediv_of_nonneg _ (by omega)]
      exact ediv_bounds (by omega) (by omega) (by omega)
    · rw [Int.fdiv_eq_ediv_of_nonneg _ (by omega)]
      exact ediv_bounds (by omega) h (by omega)
  exact BitVec.toInt_ofInt_eq_self (by decide) hbounds.1 hbounds.2

theorem toInt_fmod (hy : y ≠ 0) :
    (BitVec.ofInt 64 (x.toInt.fmod y.toInt)).toInt = x.toInt.fmod y.toInt := by
  have hzero : y.toInt ≠ 0 := fun h => hy (BitVec.toInt_inj.mp (h.trans rfl))
  have hy' := BitVec.le_toInt y
  have hy'' := BitVec.toInt_lt (x := y)
  have hbounds : -2 ^ 63 ≤ x.toInt.fmod y.toInt ∧ x.toInt.fmod y.toInt < 2 ^ 63 := by
    rcases Int.lt_or_gt_of_ne hzero with h | h
    · have hlow := Int.fmod_nonneg_of_pos (-x.toInt) (Int.neg_pos_of_neg h)
      have hhigh := Int.fmod_lt_of_pos (-x.toInt) (Int.neg_pos_of_neg h)
      rw [Int.neg_fmod_neg] at hlow hhigh
      omega
    · have hlow := Int.fmod_nonneg_of_pos x.toInt h
      have hhigh := Int.fmod_lt_of_pos x.toInt h
      omega
  exact BitVec.toInt_ofInt_eq_self (by decide) hbounds.1 hbounds.2

end

namespace Arith

variable {a : Arith} {code : Opcode} {x y w : Word}

/-- Rounding down is right for unsigned numbers, and else if nothing is left or the signs agree. -/
theorem Floored.truncated_iff (h : a.Floored x y w) (ha : a.divider? = some code) (hy : y ≠ 0) :
    a.Truncated x y w ↔ code = .divu ∨ y.toInt ∣ x.toInt ∨ (x.toInt < 0 ↔ y.toInt < 0) := by
  have hzero : y.toInt ≠ 0 := fun h => hy (BitVec.toInt_inj.mp (h.trans rfl))
  cases a with
  | div =>
    cases ha
    rw [← fdiv_eq_tdiv_iff hzero, ← show w.toInt = x.toInt.fdiv y.toInt from h]
    simp [Truncated]
  | rem =>
    cases ha
    rw [← fmod_eq_tmod_iff hzero, ← show w.toInt = x.toInt.fmod y.toInt from h]
    simp [Truncated]
  | divUn | remUn =>
    cases ha
    exact ⟨fun _ => .inl rfl, fun _ => h⟩
  | add | sub | mul | and | or | xor | shl | shr | shrUn => cases h

/-- Of the two results of a division, a remainder is the second. -/
theorem exists_floored (ha : a.divider? = some code) (hy : y ≠ 0)
    (hover : ¬(x.toInt = -2 ^ 63 ∧ y.toInt = -1)) : ∃ f, code.paired? 0 = some ("rR", f) ∧
      a.Floored x y (if a.isRemainder then (f x y).2 else (f x y).1) := by
  have hpos : (0 : Word).toNat < y.toNat := by
    have hne : y.toNat ≠ 0 := fun h => hy (BitVec.toNat_inj.mp (h.trans rfl))
    exact Nat.pos_of_ne_zero hne
  have hnat : ∀ n, n ≤ x.toNat → (BitVec.ofNat 64 n).toNat = n := by
    intro n hn
    exact Nat.mod_eq_of_lt (Nat.lt_of_le_of_lt hn x.isLt)
  cases a with
  | div =>
    cases ha
    refine ⟨_, rfl, ?_⟩
    rw [if_neg hy]
    exact toInt_fdiv hy hover
  | rem =>
    cases ha
    refine ⟨_, rfl, ?_⟩
    rw [if_neg hy]
    exact toInt_fmod hy
  | divUn =>
    cases ha
    refine ⟨_, rfl, ?_⟩
    rw [if_pos hpos]
    simpa [Floored, isRemainder] using hnat _ (Nat.div_le_self ..)
  | remUn =>
    cases ha
    refine ⟨_, rfl, ?_⟩
    rw [if_pos hpos]
    simpa [Floored, isRemainder] using hnat _ (Nat.mod_le ..)
  | add | sub | mul | and | or | xor | shl | shr | shrUn => cases ha

/-- The code, for the registers of the two operands. -/
def divisionLines (a : Arith) (code : Opcode) (lower upper : Reg) : List Line :=
  .ins code [.reg lower, .reg lower, .reg upper] ::
    if a.isRemainder then [.ins .get [.reg lower, .sym "rR"]] else []

theorem divisionLines_ins (a : Arith) (code : Opcode) (lower upper : Reg) :
    ∀ l ∈ a.divisionLines code lower upper, ∃ c operands, l = Line.ins c operands := by
  unfold divisionLines
  split <;> simp

theorem run_divisionLines {m : Machine} {f : Word → Word → Word × Word}
    (hf : code.paired? (m.special "rD") = some ("rR", f)) (a : Arith) (lower upper : Reg) :
    run (a.divisionLines code lower upper) m =
      let results := f (m.regs lower.index.val) (m.regs upper.index.val)
      (⟨Function.update m.regs lower.index.val (if a.isRemainder then results.2 else results.1),
        Function.update m.special "rR" results.2⟩, .fall) := by
  rw [divisionLines, run, Line.act_paired hf rfl rfl]
  cases a.isRemainder with
  | false => rfl
  | true => simp [run, Line.ins, Line.act, Opcode.act, Machine.set]

end Arith

namespace Lower

variable {base : Nat} {e e' : Element} {rest : List Element}

theorem binary_pair {s : LowerState} (helems : s.stack.elems = e' :: e :: rest) {lower upper : Reg}
    (hlower : lower.index.val = e.offset) (hupper : upper.index.val = e'.offset) (code : Opcode) :
    binary code s = .ok ([.ins code [.reg lower, .reg lower, .reg upper]], s.withElems (e :: rest)) :=
  bind_ok.mpr ⟨lower, s, operand_ok.mpr ⟨⟨e, by rw [helems]; rfl, hlower⟩, rfl⟩,
    bind_ok.mpr ⟨upper, s, operand_ok.mpr ⟨⟨e', by rw [helems]; rfl, hupper⟩, rfl⟩,
      bind_ok.mpr ⟨upper, _, pop_ok.mpr ⟨e', e :: rest, helems, hupper, rfl⟩, rfl⟩⟩⟩

theorem arith_division {a : Arith} {code : Opcode} (ha : a.divider? = some code) {s : LowerState}
    (helems : s.stack.elems = e' :: e :: rest) {lower upper : Reg}
    (hlower : lower.index.val = e.offset) (hupper : upper.index.val = e'.offset) :
    arith a s = .ok (a.divisionLines code lower upper, s.withElems (e :: rest)) := by
  have hpair := binary_pair helems hlower hupper code
  have hrest : remainder code s = .ok ([.ins code [.reg lower, .reg lower, .reg upper]] ++
      [.ins .get [.reg lower, .sym "rR"]], s.withElems (e :: rest)) :=
    bind_ok.mpr ⟨lower, s, operand_ok.mpr ⟨⟨e, by rw [helems]; rfl, hlower⟩, rfl⟩,
      bind_ok.mpr ⟨_, _, hpair, rfl⟩⟩
  cases a with
  | div | divUn =>
    cases ha
    exact hpair
  | rem | remUn =>
    cases ha
    exact hrest
  | add | sub | mul | and | or | xor | shl | shr | shrUn => cases ha

/-- A division takes the upper operand off, and in place of the lower one leaves what the machine computes. -/
theorem division_rounds_down {a : Arith} {code : Opcode} (ha : a.divider? = some code)
    (hs : Shape.Stacked base (shape (e' :: e :: rest))) (annotate : Bool) (site : Site)
    (label : Option String) (offset : UInt32) (σ : Session) : ∃ lines,
      piece annotate site label ⟨offset, .arith a⟩ { σ with stack := ⟨base, e' :: e :: rest⟩ } =
        .ok (lines, { σ with stack := ⟨base, e :: rest⟩ }) ∧
      ∀ m : Machine, m.special "rD" = 0 → m.regs e'.offset ≠ 0 →
        ¬((m.regs e.offset).toInt = -2 ^ 63 ∧ (m.regs e'.offset).toInt = -1) →
        ∃ m', run lines m = (m', .fall) ∧
          (∀ k, k ≠ e.offset → m'.regs k = m.regs k) ∧
          (∀ name, name ≠ "rR" → m'.special name = m.special name) ∧
          a.Floored (m.regs e.offset) (m.regs e'.offset) (m'.regs e.offset) ∧
          (a.Truncated (m.regs e.offset) (m.regs e'.offset) (m'.regs e.offset) ↔
            code = .divu ∨ (m.regs e'.offset).toInt ∣ (m.regs e.offset).toInt ∨
              ((m.regs e.offset).toInt < 0 ↔ (m.regs e'.offset).toInt < 0)) := by
  have hupper : e'.offset < registerCount := by
    have hwords := hs.2.1
    have hstop := hs.2.2.1
    omega
  have hlower : e.offset < registerCount := by
    have hwords := hs.tail.2.1
    have hstop := hs.tail.2.2.1
    omega
  obtain ⟨lower, -, hlower⟩ := Reg.exists_ofIndex hlower
  obtain ⟨upper, -, hupper⟩ := Reg.exists_ofIndex hupper
  refine ⟨CilMmix.piece annotate label ⟨offset, .arith a⟩ (a.divisionLines code lower upper),
    bind_ok.mpr ⟨_, _, arith_division ha rfl hlower hupper, rfl⟩, ?_⟩
  intro m hrD hy hover
  obtain ⟨f, hf, hfloored⟩ := Arith.exists_floored ha hy hover
  rw [← hrD] at hf
  have hcode := Line.isCode_of_ins (a.divisionLines_ins code lower upper)
  refine ⟨_, run_piece hcode (Arith.run_divisionLines hf a lower upper), ?_⟩
  rw [hlower, hupper]
  refine ⟨fun k hk => Function.update_of_ne hk .., fun name hn => Function.update_of_ne hn .., ?_⟩
  dsimp only
  rw [Function.update_self]
  exact ⟨hfloored, hfloored.truncated_iff ha hy⟩

def wordAt (offset : Nat) : Element := ⟨offset, .word, .primitive .int64, none⟩

/-- A method without variables. -/
def divisionSite : Site := ⟨⟨.empty, .empty, .empty, .empty, false⟩, "divide", false⟩

def dividing (x y : Word) : Machine := ⟨fun k => if k = 1 then x else if k = 2 then y else 0, fun _ => 0⟩

theorem division_rounds_down_minus_seven : ∃ lines m',
    piece true divisionSite (some "here") ⟨3, .arith .rem⟩
        { Session.ofModule ⟨"m", []⟩ with stack := ⟨0, [wordAt 2, wordAt 1, wordAt 0]⟩ } =
      .ok (lines, { Session.ofModule ⟨"m", []⟩ with stack := ⟨0, [wordAt 1, wordAt 0]⟩ }) ∧
    run lines (dividing (-7) 2) = (m', .fall) ∧ (m'.regs 1).toInt = 1 ∧
    ¬ Arith.rem.Truncated (-7) 2 (m'.regs 1) := by
  have hs : Shape.Stacked 0 (shape [wordAt 2, wordAt 1, wordAt 0]) := by
    simp [Shape.Stacked, Shape.top, wordAt, Size.word, Size.words, wordBytes, registerCount]
  obtain ⟨lines, hlines, hrun⟩ := division_rounds_down (show Arith.rem.divider? = some .div from rfl)
    hs true divisionSite (some "here") 3 (.ofModule ⟨"m", []⟩)
  obtain ⟨m', hm', -, -, hfloored, htruncated⟩ := hrun (dividing (-7) 2) rfl (by decide) (by decide)
  refine ⟨lines, m', hlines, hm', hfloored.trans (by decide), fun h => ?_⟩
  exact absurd (htruncated.mp h) (by decide)

/-- The number that the code of an instruction leaves in the lower of its operands. -/
def leftBy (a : Arith) (x y : Word) : Option Int :=
  ((piece false divisionSite none ⟨0, .arith a⟩).run
      { Session.ofModule ⟨"m", []⟩ with stack := ⟨0, [wordAt 2, wordAt 1, wordAt 0]⟩ }).toOption.bind
    fun code => if (run code.1 (dividing x y)).2 = .fall
      then some ((run code.1 (dividing x y)).1.regs 1).toInt else none

/-- Minus seven by two is not minus three, remainder minus one. -/
theorem minus_seven_by_two : leftBy .div (-7) 2 = some (-4) ∧ Int.tdiv (-7) 2 = -3 ∧
    leftBy .rem (-7) 2 = some 1 ∧ Int.tmod (-7) 2 = -1 := by decide +kernel

end Lower

end CilMmix
