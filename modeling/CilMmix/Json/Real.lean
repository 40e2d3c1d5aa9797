import CilMmix.Json.Basic
import CilMmix.Numeric.Shortest

/-! Floating-point numbers in JSON. Writing takes the shortest digits that read back; reading works
in double precision: as many leading digits as fit in 64 bits are converted, then scaled by a power
of ten, with a rounding at each step. -/

namespace CilMmix

/-- Powers of ten of the first digit for which a number is written without an exponent. -/
structure PositionalRange where
  least : Int
  beyond : Int

def PositionalRange.single : PositionalRange := ⟨-6, 13⟩

def PositionalRange.double : PositionalRange := ⟨-5, 16⟩

namespace Numeral

/-- A whole number gets a fraction of zero when it has no exponent. -/
def ofDecimal (range : PositionalRange) (negative : Bool) (d : Decimal) : Numeral :=
  if range.least ≤ d.leading ∧ d.leading < range.beyond then
    let (whole, fraction) := d.positional
    ⟨negative, Nat.ofDigitChars 10 whole 0, if fraction.isEmpty then ['0'] else fraction, none⟩
  else
    let ds := Nat.toDigits 10 d.digits
    ⟨negative, Nat.ofDigitChars 10 (ds.take 1) 0, ds.drop 1, some d.leading⟩

/-- The largest significand that is converted; further digits only count as places. -/
def significandLimit : Nat := UInt64.size

/-- The leading digits as a significand, and how many of them were left out. -/
def significand : Nat → List Char → Nat × Nat
  | n, [] => (n, 0)
  | n, c :: cs =>
    let m := n * 10 + (c.toNat - '0'.toNat)
    if m < significandLimit then significand m cs else (n, cs.length + 1)

/-- The significand and the power of ten to scale it by. -/
def scaled (n : Numeral) : Nat × Int :=
  let (whole, dropped) := significand 0 (Nat.toDigits 10 n.whole)
  let (m, left) := significand whole n.fraction
  let places : Int := (n.fraction.length - left : Nat)
  (m, dropped - places + n.exponent.getD 0)

def powerOfTen (n : Nat) : Float := Float.ofScientific 1 false n

/-- The largest power of ten that a double holds. -/
def maxPower : Nat := 308

/-- Divides by the largest power of ten until the rest of the way is within reach. -/
def scaleDown (x : Float) (exponent : Nat) : Float :=
  if exponent ≤ maxPower then x / powerOfTen exponent
  else if x == 0.0 then x
  else scaleDown (x / powerOfTen maxPower) (exponent - maxPower)
termination_by exponent
decreasing_by simp only [maxPower] at *; omega

/-- The number with its sign left out; none when it is beyond the range of a double. -/
def magnitude? (n : Numeral) : Option Float :=
  let (m, exponent) := n.scaled
  let x := (UInt64.ofNat m).toFloat
  match exponent with
  | .ofNat e =>
    if m = 0 then some x
    else if maxPower < e then none
    else
      let y := x * powerOfTen e
      if y.isInf then none else some y
  | .negSucc e => if m = 0 then some x else some (scaleDown x (e + 1))

def toFloat? (n : Numeral) : Option Float :=
  n.magnitude?.map fun x => if n.negative then -x else x

def toBinary64? (n : Numeral) : Option Binary64 :=
  n.toFloat?.map fun x => ⟨x.toBits⟩

/-- Integers are rounded at once, other numbers by way of a double. -/
def toBinary32? (n : Numeral) : Option Binary32 :=
  match n.toInt? with
  | some (.ofNat i) =>
    if i < UInt64.size then some ⟨(UInt64.ofNat i).toFloat32.toBits⟩
    else n.toFloat?.map fun x => ⟨x.toFloat32.toBits⟩
  | some (.negSucc i) =>
    if i < 0x8000000000000000 then some ⟨(Int64.ofInt (.negSucc i)).toFloat32.toBits⟩
    else n.toFloat?.map fun x => ⟨x.toFloat32.toBits⟩
  | none => n.toFloat?.map fun x => ⟨x.toFloat32.toBits⟩

end Numeral

/-- A value that is not a number has no numeral. -/
def BinaryValue.numeral? (range : PositionalRange) : BinaryValue → Option Numeral
  | nan | infinite _ => none
  | zero negative => some ⟨negative, 0, ['0'], none⟩
  | finite negative mantissa scale narrowBelow =>
    some (.ofDecimal range negative (Decimal.shortest .toEven mantissa scale narrowBelow))

def Binary32.toJson (x : Binary32) : Json :=
  match x.value.numeral? .single with
  | some n => .num n
  | none => .null

def Binary64.toJson (x : Binary64) : Json :=
  match x.value.numeral? .double with
  | some n => .num n
  | none => .null

end CilMmix
