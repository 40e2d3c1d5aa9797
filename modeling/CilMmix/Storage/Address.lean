import CilMmix.Storage.Size
import CilMmix.Text.Quoted

/-! Memory addresses and the four segments of an MMIX address space. -/

namespace CilMmix

/-- The address of a byte, below `2 ^ 64`. Places are handed out one after the other and do not reach this
bound. -/
structure Address where
  raw : Nat
  deriving DecidableEq

namespace Address

def textSegment : Address := ⟨0⟩

def dataSegment : Address := ⟨0x2000000000000000⟩

/-- Static fields and string literals are placed from here on. -/
def poolSegment : Address := ⟨0x4000000000000000⟩

def stackSegment : Address := ⟨0x6000000000000000⟩

/-- The address a number of bytes further on. -/
def add (a : Address) (s : Size) : Address := ⟨a.raw + s.bytes⟩

/-- The address of the word that holds this byte. -/
def alignDown (a : Address) : Address := ⟨a.raw / wordBytes * wordBytes⟩

/-- The first word address at or after this one. -/
def alignUp (a : Address) : Address := ⟨(a.raw + (wordBytes - 1)) / wordBytes * wordBytes⟩

def text (a : Address) : String := "#" ++ Text.upperHex 1 a.raw

end Address

end CilMmix
