/-! Floating-point literals. A literal is kept as the bits that encode it, so that the sign of zero
and the payload of a NaN survive copying. -/

namespace CilMmix

structure Binary32 where
  bits : UInt32
  deriving DecidableEq

structure Binary64 where
  bits : UInt64
  deriving DecidableEq

/-- Field widths of an encoding: sign, exponent, stored mantissa. -/
structure BinaryFormat where
  exponentBits : Nat
  mantissaBits : Nat

namespace BinaryFormat

def single : BinaryFormat := ⟨8, 23⟩

def double : BinaryFormat := ⟨11, 52⟩

/-- The power of two that the last mantissa bit of a subnormal number stands for. -/
def leastScale (f : BinaryFormat) : Int :=
  2 - (1 <<< (f.exponentBits - 1) : Nat) - f.mantissaBits

end BinaryFormat

/-- What an encoding stands for. -/
inductive BinaryValue where
  | nan
  | infinite (negative : Bool)
  | zero (negative : Bool)
  /-- The number `mantissa * 2 ^ scale`. Its lower neighbour is only half as far away as its upper
  one when `narrowBelow` holds. -/
  | finite (negative : Bool) (mantissa : Nat) (scale : Int) (narrowBelow : Bool)

namespace BinaryFormat

def decode (f : BinaryFormat) (bits : Nat) : BinaryValue :=
  let mantissa := bits % (1 <<< f.mantissaBits)
  let exponent := bits >>> f.mantissaBits % (1 <<< f.exponentBits)
  let negative := bits >>> (f.mantissaBits + f.exponentBits) == 1
  if exponent == 1 <<< f.exponentBits - 1 then
    if mantissa == 0 then .infinite negative else .nan
  else if exponent == 0 then
    if mantissa == 0 then .zero negative else .finite negative mantissa f.leastScale false
  else
    .finite negative (mantissa + 1 <<< f.mantissaBits) (f.leastScale + (exponent - 1 : Nat))
      (mantissa == 0 && exponent != 1)

end BinaryFormat

def Binary32.value (x : Binary32) : BinaryValue := BinaryFormat.single.decode x.bits.toNat

def Binary64.value (x : Binary64) : BinaryValue := BinaryFormat.double.decode x.bits.toNat

end CilMmix
