import CilMmix.Assembly.Line
import CilMmix.Storage.Address
import CilMmix.Storage.Layout

/-! Storage for static fields and string literals. Each field and each text gets one place, one after
the other in the pool segment, when it is first asked for. The methods of one module share it, and what
is known of the layout. -/

namespace CilMmix

/-- What storage is for. -/
inductive StaticKey where
  | field (id : String)
  | literal (text : String)
  deriving DecidableEq

structure Allocation where
  key : StaticKey
  address : Address
  size : Size
  label : String
  /-- The value the words start with. -/
  initial : Nat := 0

structure Statics where
  /-- In the order of the addresses. -/
  allocations : List Allocation := []
  /-- Where the next allocation goes. -/
  cursor : Address := .poolSegment

namespace Statics

def find? (s : Statics) (key : StaticKey) : Option Allocation :=
  s.allocations.find? fun a => a.key = key

def allocate (s : Statics) (key : StaticKey) (size : Size) (label : String) : Allocation × Statics :=
  let a : Allocation := { key, address := s.cursor, size, label }
  (a, ⟨s.allocations ++ [a], s.cursor.add (.ofWords size.words)⟩)

/-- The storage of a static field; its size matters the first time only. -/
def field (s : Statics) (id : String) (size : Size) : Allocation × Statics :=
  match s.find? (.field id) with
  | some a => (a, s)
  | none => s.allocate (.field id) size (mangle id)

def isLiteral : StaticKey → Bool
  | .literal _ => true
  | .field _ => false

/-- A literal has two words in front of its text. -/
def headerSize : Size := .ofWords 2

def textBytes (text : String) : List UInt8 := text.toUTF8.data.toList

/-- The storage of a string literal: the header, then its bytes and a zero. -/
def literal (s : Statics) (text : String) : Allocation × Statics :=
  match s.find? (.literal text) with
  | some a => (a, s)
  | none =>
    let count := s.allocations.countP fun a => isLiteral a.key
    s.allocate (.literal text) (headerSize + ⟨(textBytes text).length + 1⟩) ("Str_" ++ toString count)

/-- Bytes on one line of data. -/
def bytesPerLine : Nat := 20

/-- Lines of data bytes, as many bytes on each as fit. -/
def byteLines (bs : List UInt8) : List Line :=
  match bs with
  | [] => []
  | b :: rest =>
    .ins .byte (((b :: rest).take bytesPerLine).map fun b => .hex 2 b.toNat) ::
      byteLines ((b :: rest).drop bytesPerLine)
termination_by bs.length
decreasing_by simp only [List.length_drop, List.length_cons, bytesPerLine]; omega

/-- The bytes of a text, a zero, and zeros up to a whole number of words. -/
def paddedBytes (text : String) : List UInt8 :=
  let bs := textBytes text ++ [0]
  bs ++ List.replicate ((⟨bs.length⟩ : Size).roundedBytes - bs.length) 0

def allocationLines (a : Allocation) : List Line :=
  .ins .loc [.hex 1 a.address.raw] ::
    match a.key with
    | .literal text => .op (some a.label) .octa [.imm 0, .imm 0] :: byteLines (paddedBytes text)
    | .field _ => [.op (some a.label) .octa (List.replicate (max a.size.words 1) (.imm a.initial))]

/-- The data segment. -/
def lines (s : Statics) : List Line :=
  .ins .loc [.sym "Data_Segment"] :: s.allocations.flatMap allocationLines

end Statics

/-- What the methods of one module share while they are compiled. -/
structure Session where
  layout : Layout
  statics : Statics := {}

def Session.ofModule (m : Module) : Session := { layout := { types := m.types } }

end CilMmix
