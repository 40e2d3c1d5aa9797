import CilMmix.Module.Basic

/-! Enumerations of the bytecode with the names and numbers that stored modules use. -/

namespace CilMmix

class Enumerated (α : Type) where
  /-- The values in the order of their numbers, which start at zero. -/
  all : List α
  number : α → Nat
  name : α → String

namespace Enumerated

def named? {α : Type} [Enumerated α] (s : String) : Option α :=
  (all : List α).find? fun a => name a == s

def numbered? {α : Type} [Enumerated α] (n : Nat) : Option α :=
  (all : List α)[n]?

end Enumerated

instance : Enumerated Primitive where
  all := [.void, .bool, .int8, .uint8, .int16, .uint16, .int32, .uint32, .int64, .uint64, .nativeInt,
    .nativeUInt]
  number := Primitive.ctorIdx
  name
    | .void => "Void"
    | .bool => "Bool"
    | .int8 => "I8"
    | .uint8 => "U8"
    | .int16 => "I16"
    | .uint16 => "U16"
    | .int32 => "I32"
    | .uint32 => "U32"
    | .int64 => "I64"
    | .uint64 => "U64"
    | .nativeInt => "NativeInt"
    | .nativeUInt => "NativeUInt"

instance : Enumerated Width where
  all := [.i1, .u1, .i2, .u2, .i4, .u4, .i8, .i, .r4, .r8, .ref]
  number := Width.ctorIdx
  name
    | .i1 => "I1"
    | .u1 => "U1"
    | .i2 => "I2"
    | .u2 => "U2"
    | .i4 => "I4"
    | .u4 => "U4"
    | .i8 => "I8"
    | .i => "I"
    | .r4 => "R4"
    | .r8 => "R8"
    | .ref => "Ref"

instance : Enumerated Conversion where
  all := [.i1, .i2, .i4, .i8, .u1, .u2, .u4, .u8, .i, .u, .r4, .r8, .rUn]
  number := Conversion.ctorIdx
  name
    | .i1 => "I1"
    | .i2 => "I2"
    | .i4 => "I4"
    | .i8 => "I8"
    | .u1 => "U1"
    | .u2 => "U2"
    | .u4 => "U4"
    | .u8 => "U8"
    | .i => "I"
    | .u => "U"
    | .r4 => "R4"
    | .r8 => "R8"
    | .rUn => "RUn"

instance : Enumerated TypeKind where
  all := [.classType, .structType, .interfaceType]
  number := TypeKind.ctorIdx
  name
    | .classType => "Class"
    | .structType => "Struct"
    | .interfaceType => "Interface"

end CilMmix
