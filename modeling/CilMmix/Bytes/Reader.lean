import CilMmix.Bytes.Varint

/-! Reading and writing the parts that binary files are made of. -/

namespace CilMmix.Bytes

/-- Takes a value off the front of the bytes. -/
abbrev Reader := StateT (List UInt8) (Except Malformed)

def varintOf (w : VarintWidth) : Reader Nat := takeVarint w.lastGroup w.groups

def byte : Reader UInt8
  | [] => .error .truncated
  | b :: rest => .ok (b, rest)

/-- The next `count` bytes. -/
def block (count : Nat) : Reader (List UInt8) := fun bs =>
  if bs.length < count then .error .truncated else .ok (bs.take count, bs.drop count)

def bool : Reader Bool := do
  let b ← byte
  if b = 0 then return false else if b = 1 then return true else throw .badBool

/-- A byte string stands for the number with its first byte lowest. -/
def littleEndian (bs : List UInt8) : Nat :=
  bs.foldr (fun b n => b.toNat + 256 * n) 0

def toLittleEndian (n : Nat) : Nat → List UInt8
  | 0 => []
  | count + 1 => UInt8.ofNat (n % 256) :: toLittleEndian (n / 256) count

/-- A length and that many bytes of UTF-8. -/
def text : Reader String := do
  let count ← varintOf .bits64
  let bs ← block count
  match String.fromUTF8? bs.toByteArray with
  | some s => return s
  | none => throw .badText

def ofText (s : String) : List UInt8 :=
  let bs := s.toUTF8.data.toList
  varint bs.length ++ bs

def times {α : Type} (item : Reader α) : Nat → Reader (List α)
  | 0 => return []
  | count + 1 => do
    let a ← item
    let as ← times item count
    return a :: as

/-- A length and that many items. -/
def list {α : Type} (item : Reader α) : Reader (List α) := do
  let count ← varintOf .bits64
  times item count

def ofList {α : Type} (item : α → List UInt8) (as : List α) : List UInt8 :=
  varint as.length ++ as.flatMap item

/-- Zero, or one and the value. -/
def option {α : Type} (item : Reader α) : Reader (Option α) := do
  let b ← byte
  if b = 0 then return none
  else if b = 1 then return some (← item)
  else throw .badOption

def ofOption {α : Type} (item : α → List UInt8) : Option α → List UInt8
  | none => [0]
  | some a => 1 :: item a

def ofBool (b : Bool) : List UInt8 := [if b then 1 else 0]

/-- The choice with a number. -/
def variant {α : Type} (choices : Nat → Option α) : Reader α := do
  let n ← varintOf .bits32
  match choices n with
  | some a => return a
  | none => throw .unknownVariant

end CilMmix.Bytes
