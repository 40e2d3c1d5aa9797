import CilMmix.Code.Op

/-! A module: the types it declares with their fields and methods. -/

namespace CilMmix

structure FieldDef where
  name : String
  ty : TypeRef
  isStatic : Bool

structure MethodDef where
  name : String
  isStatic : Bool := true
  isConstructor : Bool := false
  params : List TypeRef := []
  ret : TypeRef := .void
  locals : List TypeRef := []
  /-- Absent for abstract and external methods; empty for routines of the runtime library. -/
  body : Option (List Instruction) := none

namespace MethodDef

/-- The instructions of the body, none when it is absent. -/
def code (m : MethodDef) : List Instruction := m.body.getD []

/-- Instructions numbered by their position. -/
def number (ops : List Op) : List Instruction :=
  ops.mapIdx fun i op => ⟨UInt32.ofNat i, op⟩

/-- The types of the parameters and of the result. -/
def signature (m : MethodDef) : String :=
  "(" ++ Text.commaList (m.params.map TypeRef.text) ++ ") -> " ++ m.ret.text

end MethodDef

inductive TypeKind where
  | classType
  | structType
  | interfaceType
  deriving DecidableEq

structure TypeDef where
  /-- The full name, with the namespace. -/
  name : String
  kind : TypeKind
  fields : List FieldDef := []
  methods : List MethodDef := []

/-- The fields that every value of the type holds. -/
def TypeDef.instanceFields (t : TypeDef) : List FieldDef :=
  t.fields.filter fun f => !f.isStatic

structure Module where
  name : String
  types : List TypeDef := []

end CilMmix
