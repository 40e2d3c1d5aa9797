import CilMmix.Storage.Size

/-! Types as signatures, fields and instruction operands name them. -/

namespace CilMmix

inductive Primitive where
  | void
  | bool
  | int8
  | uint8
  | int16
  | uint16
  | int32
  | uint32
  | int64
  | uint64
  | nativeInt
  | nativeUInt
  deriving DecidableEq

namespace Primitive

def size : Primitive → Size
  | void => .zero
  | bool | int8 | uint8 => ⟨1⟩
  | int16 | uint16 => ⟨2⟩
  | int32 | uint32 => ⟨4⟩
  | int64 | uint64 => ⟨8⟩
  | nativeInt | nativeUInt => .word

def text : Primitive → String
  | void => "void"
  | bool => "bool"
  | int8 => "int8"
  | uint8 => "uint8"
  | int16 => "int16"
  | uint16 => "uint16"
  | int32 => "int32"
  | uint32 => "uint32"
  | int64 => "int64"
  | uint64 => "uint64"
  | nativeInt => "native int"
  | nativeUInt => "native uint"

end Primitive

inductive TypeRef where
  | primitive (p : Primitive)
  /-- An array of known element type: a data pointer and a count. -/
  | array (elem : TypeRef)
  /-- The base type of all arrays, stored like one. -/
  | anyArray
  /-- Text, stored like an array of bytes. -/
  | string
  | pointer (target : TypeRef)
  | byRef (target : TypeRef)
  | pinned (inner : TypeRef)
  /-- A type the module declares, by its full name. -/
  | named (name : String)
  deriving DecidableEq

namespace TypeRef

def void : TypeRef := .primitive .void

def isVoid : TypeRef → Bool
  | .primitive .void => true
  | _ => false

def text : TypeRef → String
  | primitive p => p.text
  | array elem => elem.text ++ "[]"
  | anyArray => "System.Array"
  | string => "string"
  | pointer target => target.text ++ "*"
  | byRef target => target.text ++ "&"
  | pinned inner => inner.text ++ " pinned"
  | named name => name

end TypeRef

end CilMmix
