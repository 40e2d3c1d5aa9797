import CilMmix.Numeric.Binary

/-! The decimal with the fewest digits that lies closer to a binary number than to its neighbours, so
that reading it back gives the number again. -/

namespace CilMmix

/-- The number `digits * 10 ^ exponent`, written without zeros at the end of `digits`. -/
structure Decimal where
  digits : Nat
  exponent : Int

namespace Decimal

/-- Which of two equally near decimals is taken. -/
inductive Tie where
  | up
  | toEven

/-- A positive binary number with the ends of the interval that rounds to it, all over one
denominator. -/
structure Target where
  low : Nat
  exact : Nat
  high : Nat
  denominator : Nat
  closed : Bool

/-- The interval around `mantissa * 2 ^ scale`, in quarters of its last place. -/
def Target.ofBinary (mantissa : Nat) (scale : Int) (narrowBelow : Bool) : Target :=
  let up := 1 <<< (scale - 2).toNat
  { low := (4 * mantissa - (if narrowBelow then 1 else 2)) * up
    exact := 4 * mantissa * up
    high := (4 * mantissa + 2) * up
    denominator := 1 <<< (2 - scale).toNat
    closed := mantissa % 2 == 0 }

/-- The target measured in units of `10 ^ exponent`. -/
def Target.inUnits (t : Target) (exponent : Int) : Target :=
  let up := Nat.pow 10 (-exponent).toNat
  { t with
    low := t.low * up
    exact := t.exact * up
    high := t.high * up
    denominator := t.denominator * Nat.pow 10 exponent.toNat }

def Target.admits (t : Target) (n : Nat) : Bool :=
  let x := n * t.denominator
  if t.closed then t.low ≤ x && x ≤ t.high else t.low < x && x < t.high

/-- The whole number nearest to the target among its two neighbours, if one lies in the interval. -/
def Target.nearest? (tie : Tie) (t : Target) : Option Nat :=
  let below := t.exact / t.denominator
  let rest := t.exact % t.denominator
  match t.admits below, t.admits (below + 1) with
  | false, false => none
  | true, false => some below
  | false, true => some (below + 1)
  | true, true =>
    match compare (2 * rest) t.denominator, tie with
    | .lt, _ => some below
    | .gt, _ => some (below + 1)
    | .eq, .up => some (below + 1)
    | .eq, .toEven => some (if below % 2 == 0 then below else below + 1)

/-- The largest power of ten not above the target, among `top`, `top - 1`, and so on. -/
def Target.magnitude (t : Target) (top : Int) : Nat → Int
  | 0 => top
  | steps + 1 =>
    let u := t.inUnits top
    if u.denominator ≤ u.exact then top else t.magnitude (top - 1) steps

/-- Takes zeros off the end of the digits. -/
def strip (d : Decimal) : Nat → Decimal
  | 0 => d
  | steps + 1 =>
    if d.digits % 10 == 0 then strip ⟨d.digits / 10, d.exponent + 1⟩ steps else d

/-- More places than any number of either format needs. -/
def maxPlaces : Nat := 17

/-- Tries one place, then two, and so on; the first grid that has a point in the interval gives the
answer. -/
def shortest (tie : Tie) (mantissa : Nat) (scale : Int) (narrowBelow : Bool) : Decimal :=
  let t := Target.ofBinary mantissa scale narrowBelow
  let top := t.magnitude 309 700
  let hit := (List.range maxPlaces).findSome? fun (n : Nat) =>
    ((t.inUnits (top - n)).nearest? tie).map fun d => (⟨d, top - n⟩ : Decimal)
  (hit.getD ⟨mantissa, 0⟩).strip maxPlaces

/-- The power of ten of the first digit. -/
def leading (d : Decimal) : Int :=
  d.exponent + ((Nat.toDigits 10 d.digits).length - 1 : Nat)

/-- The digits before and after the point, written without an exponent. -/
def positional (d : Decimal) : List Char × List Char :=
  let ds := Nat.toDigits 10 d.digits
  let point : Int := ds.length + d.exponent
  if 0 < point then
    let whole := ds.take point.toNat
    (whole ++ List.replicate (point.toNat - whole.length) '0', ds.drop point.toNat)
  else
    (['0'], List.replicate (-point).toNat '0' ++ ds)

end Decimal

/-- Literals in listings: the shortest digits, never an exponent, no point when the number is whole. -/
def BinaryValue.plain : BinaryValue → String
  | nan => "NaN"
  | infinite negative => (if negative then "-" else "") ++ "inf"
  | zero negative => (if negative then "-" else "") ++ "0"
  | finite negative mantissa scale narrowBelow =>
    let (whole, fraction) := (Decimal.shortest .up mantissa scale narrowBelow).positional
    (if negative then "-" else "") ++ String.ofList whole ++
      (if fraction.isEmpty then "" else "." ++ String.ofList fraction)

def Binary32.text (x : Binary32) : String := x.value.plain

def Binary64.text (x : Binary64) : String := x.value.plain

end CilMmix
