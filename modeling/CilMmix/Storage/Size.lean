/-! Byte counts handled in machine words of eight bytes. Comparison looks at the bytes, addition at
the words: one byte and one byte make two words. -/

namespace CilMmix

/-- Bytes in a machine word. -/
def wordBytes : Nat := 8

/-- A number of bytes. The sizes of programs are below `2 ^ 64`, and so are their sums: what becomes of
larger ones is not said here. -/
structure Size where
  bytes : Nat
  deriving DecidableEq

namespace Size

def zero : Size := ⟨0⟩

def word : Size := ⟨wordBytes⟩

def ofWords (words : Nat) : Size := ⟨words * wordBytes⟩

/-- The words that hold the bytes, the last one perhaps in part. -/
def words (s : Size) : Nat := (s.bytes + (wordBytes - 1)) / wordBytes

/-- The bytes of the words that hold the value. -/
def roundedBytes (s : Size) : Nat := s.words * wordBytes

def isZero (s : Size) : Bool := s.bytes == 0

instance : Add Size := ⟨fun a b => ofWords (a.words + b.words)⟩

instance : Ord Size := ⟨fun a b => compare a.bytes b.bytes⟩

def sum (sizes : List Size) : Size := sizes.foldl (· + ·) zero

/-- `2w (16b)`: words, then bytes. -/
def text (s : Size) : String :=
  toString s.words ++ "w (" ++ toString s.bytes ++ "b)"

end Size

end CilMmix
