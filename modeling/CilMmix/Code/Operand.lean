import CilMmix.Code.Type
import CilMmix.Text.Quoted

/-! What instructions name besides types: widths of memory access, targets of conversions, methods
and fields. -/

namespace CilMmix

/-- Width of an indirect or array access. -/
inductive Width where
  | i1
  | u1
  | i2
  | u2
  | i4
  | u4
  | i8
  /-- A native integer. -/
  | i
  | r4
  | r8
  /-- An object reference. -/
  | ref
  deriving DecidableEq

namespace Width

def text : Width → String
  | i1 => "i1"
  | u1 => "u1"
  | i2 => "i2"
  | u2 => "u2"
  | i4 => "i4"
  | u4 => "u4"
  | i8 => "i8"
  | i => "i"
  | r4 => "r4"
  | r8 => "r8"
  | ref => "ref"

/-- Distance between neighbouring elements of this width. -/
def bytes : Width → Nat
  | i1 | u1 => 1
  | i2 | u2 => 2
  | i4 | u4 | r4 => 4
  | i8 | i | r8 | ref => 8

/-- The type of a loaded value; floating point is not loaded. -/
def loaded? : Width → Option TypeRef
  | i1 => some (.primitive .int8)
  | u1 => some (.primitive .uint8)
  | i2 => some (.primitive .int16)
  | u2 => some (.primitive .uint16)
  | i4 => some (.primitive .int32)
  | u4 => some (.primitive .uint32)
  | i8 => some (.primitive .int64)
  | i => some (.primitive .nativeInt)
  | ref => some (.primitive .nativeUInt)
  | r4 | r8 => none

end Width

/-- Target of a conversion. -/
inductive Conversion where
  | i1
  | i2
  | i4
  | i8
  | u1
  | u2
  | u4
  | u8
  | i
  | u
  | r4
  | r8
  | rUn
  deriving DecidableEq

def Conversion.text : Conversion → String
  | i1 => "i1"
  | i2 => "i2"
  | i4 => "i4"
  | i8 => "i8"
  | u1 => "u1"
  | u2 => "u2"
  | u4 => "u4"
  | u8 => "u8"
  | i => "i"
  | u => "u"
  | r4 => "r4"
  | r8 => "r8"
  | rUn => "r.un"

/-- Target of a call, with the signature the call site expects. -/
structure MethodRef where
  declaringType : String
  name : String
  params : List TypeRef
  ret : TypeRef
  deriving DecidableEq

def MethodRef.text (m : MethodRef) : String :=
  m.ret.text ++ " " ++ m.declaringType ++ "::" ++ m.name ++ "(" ++
    Text.commaList (m.params.map TypeRef.text) ++ ")"

structure FieldRef where
  declaringType : String
  name : String
  deriving DecidableEq

/-- The identity of a field: its type and its name as one text. -/
def FieldRef.text (f : FieldRef) : String :=
  f.declaringType ++ "::" ++ f.name

end CilMmix
