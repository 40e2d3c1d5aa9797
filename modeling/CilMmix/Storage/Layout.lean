import CilMmix.Fault
import CilMmix.Module.Basic

/-! Sizes of types and offsets of fields. A value type holds its instance fields one after the other,
each in whole words; all other declared types are references of one word. Answers are remembered. -/

namespace CilMmix

structure Layout where
  types : List TypeDef
  /-- Sizes of declared types that are known already. -/
  sizes : List (String × Size) := []
  /-- Offsets of fields that are known already, by the identity of the field. -/
  offsets : List (String × Size) := []

namespace Layout

/-- The declaration of a type; of several with one name the last counts. -/
def declared? (types : List TypeDef) (name : String) : Option TypeDef :=
  types.findRev? fun t => t.name == name

/-- Sizes found so far, and the answer to a question about one more. -/
abbrev Sizing (α : Type) := List (String × Size) → Except Fault α × List (String × Size)

/-- The size of a type, given what to do about declared ones. -/
def sizeBy (declaredSize : String → Sizing Size) : TypeRef → Sizing Size
  | .primitive p, known => (.ok p.size, known)
  | .array _, known | .anyArray, known | .string, known => (.ok (.ofWords 2), known)
  | .pointer _, known | .byRef _, known => (.ok .word, known)
  | .pinned inner, known => sizeBy declaredSize inner known
  | .named name, known => declaredSize name known

/-- The words of several types together, added to a total. -/
def totalBy (size : TypeRef → Sizing Size) (total : Size) : List TypeRef → Sizing Size
  | [], known => (.ok total, known)
  | ty :: tys, known =>
    match size ty known with
    | (.ok s, known) => totalBy size (total + s) tys known
    | (.error fault, known) => (.error fault, known)

/-- The size of a declared type inside the value types `outer`, which it must not be one of. The first
argument bounds how many more value types can be entered: never more than are declared. -/
def declaredSize (types : List TypeDef) : Nat → List String → String → Sizing Size
  | room, outer, name, known =>
    match known.lookup name with
    | some s => (.ok s, known)
    | none =>
      match declared? types name with
      | none => (.error (.unknownSize name), known)
      | some t =>
        match t.kind with
        | .classType | .interfaceType => (.ok .word, (name, .word) :: known)
        | .structType =>
          match room with
          | 0 => (.error (.recursiveType name), known)
          | room + 1 =>
            if outer.contains name then (.error (.recursiveType name), known)
            else
              let fields := t.instanceFields.map FieldDef.ty
              match totalBy (sizeBy (declaredSize types room (name :: outer))) .zero fields known with
              | (.ok s, known) => (.ok s, (name, s) :: known)
              | (.error fault, known) => (.error fault, known)

def sizeOf (l : Layout) (ty : TypeRef) : Except Fault Size × Layout :=
  let (answer, sizes) := sizeBy (declaredSize l.types (l.types.length + 1) []) ty l.sizes
  (answer, { l with sizes })

/-- Whether values of the type are held field by field. -/
def isStruct (l : Layout) : TypeRef → Bool
  | .named name => (declared? l.types name).any fun t => t.kind == .structType
  | .pinned inner => l.isStruct inner
  | _ => false

/-- The declaration of a field; of several with one name the first counts. -/
def resolveField (l : Layout) (f : FieldRef) : Except Fault FieldDef :=
  match (declared? l.types f.declaringType).bind fun t => t.fields.find? fun d => d.name == f.name with
  | some d => .ok d
  | none => .error (.unresolvedField f.text)

/-- Places fields after `offset`. The place of a field is known before its size is. -/
def place (typeName : String) : List FieldDef → Size → Layout → Except Fault Unit × Layout
  | [], _, l => (.ok (), l)
  | f :: fields, offset, l =>
    let key := FieldRef.text ⟨typeName, f.name⟩
    match sizeOf { l with offsets := (key, offset) :: l.offsets } f.ty with
    | (.ok s, l) => place typeName fields (offset + s) l
    | (.error fault, l) => (.error fault, l)

/-- The offset of an instance field in its type. -/
def fieldOffset (l : Layout) (f : FieldRef) : Except Fault Size × Layout :=
  match l.offsets.lookup f.text with
  | some offset => (.ok offset, l)
  | none =>
    match declared? l.types f.declaringType with
    | none => (.error (.unresolvedField f.text), l)
    | some t =>
      match place t.name t.instanceFields .zero l with
      | (.error fault, l) => (.error fault, l)
      | (.ok _, l) =>
        match l.offsets.lookup f.text with
        | some offset => (.ok offset, l)
        | none => (.error (.unresolvedField f.text), l)

end Layout

end CilMmix
