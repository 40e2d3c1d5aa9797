/-! Integers in groups of seven bits, lowest group first. All bytes but the last have their top bit
set. -/

namespace CilMmix.Bytes

/-- Why bytes cannot be read. -/
inductive Malformed where
  | truncated
  | overlongVarint
  | badBool
  | badOption
  | badText
  | unknownVariant
  deriving DecidableEq

def Malformed.message : Malformed → String
  | truncated => "Hit the end of buffer, expected more data"
  | overlongVarint => "Found a varint that didn't terminate. Is the usize too big for this platform?"
  | badBool => "Found a bool that wasn't 0 or 1"
  | badOption => "Found an Option discriminant that wasn't 0 or 1"
  | badText => "Tried to parse invalid utf-8"
  | unknownVariant => "Serde Deserialization Error"

/-- Width of an integer: the groups it may take and the largest value of the last one. -/
structure VarintWidth where
  groups : Nat
  lastGroup : Nat

namespace VarintWidth

def bits16 : VarintWidth := ⟨3, 3⟩

def bits32 : VarintWidth := ⟨5, 15⟩

def bits64 : VarintWidth := ⟨10, 1⟩

end VarintWidth

def varint (n : Nat) : List UInt8 :=
  if n < 128 then [UInt8.ofNat n] else UInt8.ofNat (n % 128 + 128) :: varint (n / 128)
termination_by n

/-- The integer at the front and what follows it. Groups of zeros at the end are accepted. -/
def takeVarint (lastGroup : Nat) : Nat → List UInt8 → Except Malformed (Nat × List UInt8)
  | 0, _ => .error .overlongVarint
  | _ + 1, [] => .error .truncated
  | groups + 1, b :: rest =>
    if b.toNat < 128 then
      if groups = 0 ∧ lastGroup < b.toNat then .error .overlongVarint else .ok (b.toNat, rest)
    else
      match takeVarint lastGroup groups rest with
      | .ok (n, rest) => .ok (b.toNat % 128 + 128 * n, rest)
      | .error e => .error e

theorem takeVarint_length {lastGroup groups n : Nat} {bs rest : List UInt8}
    (h : takeVarint lastGroup groups bs = .ok (n, rest)) : rest.length < bs.length := by
  fun_induction takeVarint lastGroup groups bs generalizing n rest <;> grind

/-- Signed integers alternate: 0, -1, 1, -2, and so on. -/
def zigzag (n : Int) : Nat :=
  match n with
  | .ofNat m => 2 * m
  | .negSucc m => 2 * m + 1

def unzigzag (n : Nat) : Int :=
  if n % 2 = 0 then .ofNat (n / 2) else .negSucc (n / 2)

end CilMmix.Bytes
