/-! JSON documents. An object keeps its members in the order of the text, repeated names included,
and a number keeps the digits it was written with. -/

namespace CilMmix

/-- A number as written: sign, digits before and after the point, power of ten. -/
structure Numeral where
  negative : Bool
  whole : Nat
  fraction : List Char := []
  exponent : Option Int := none

namespace Numeral

def ofInt (n : Int) : Numeral := ⟨decide (n < 0), n.natAbs, [], none⟩

/-- The value of a number written without point and exponent. Minus zero is no integer. -/
def toInt? (n : Numeral) : Option Int :=
  match n.fraction, n.exponent with
  | [], none => if n.negative then (if n.whole = 0 then none else some (-(n.whole : Int))) else some n.whole
  | _, _ => none

end Numeral

inductive Json where
  | null
  | bool (b : Bool)
  | num (n : Numeral)
  | str (s : String)
  | arr (items : List Json)
  | obj (members : List (String × Json))
  /-- A string that has no text, or an object with such a name. It is well formed and can be passed
  over, but nothing can be read from it. -/
  | garbled

end CilMmix
