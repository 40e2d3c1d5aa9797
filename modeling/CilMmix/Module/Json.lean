import CilMmix.Code.Catalogue
import CilMmix.Code.Enumerated
import CilMmix.Json.Decode
import CilMmix.Json.Printer
import CilMmix.Json.Reader
import CilMmix.Json.Real

/-! Modules as JSON text. A structure is an object; a choice without content is its name, one with
content is an object whose only member has that name. -/

namespace CilMmix

namespace Json

def ofNat (n : Nat) : Json := .num (.ofInt n)

/-- A choice with content. -/
def tagged (name : String) (content : Json) : Json := .obj [(name, content)]

end Json

namespace Enumerated

variable {α : Type} [Enumerated α]

def toJson (a : α) : Json := .str (name a)

/-- The name, alone or with the content null. -/
def ofJson? : Json.Decoder α
  | _, .str s => named? s
  | _ + 1, .obj [(s, .null)] => named? s
  | _, _ => none

end Enumerated

namespace TypeRef

def toJson : TypeRef → Json
  | primitive p => .tagged "Primitive" (Enumerated.toJson p)
  | array elem => .tagged "Array" elem.toJson
  | anyArray => .str "AnyArray"
  | string => .str "String"
  | pointer target => .tagged "Pointer" target.toJson
  | byRef target => .tagged "ByRef" target.toJson
  | pinned inner => .tagged "Pinned" inner.toJson
  | named name => .tagged "Named" (.str name)

/-- The types that have no content. -/
def atom? (s : String) : Option TypeRef :=
  if s = "AnyArray" then some .anyArray else if s = "String" then some .string else none

def ofJson? : Json.Decoder TypeRef
  | room + 1, .obj [(key, content)] =>
    if key = "Primitive" then (Enumerated.ofJson? room content).map .primitive
    else if key = "Array" then (ofJson? room content).map .array
    else if key = "Pointer" then (ofJson? room content).map .pointer
    else if key = "ByRef" then (ofJson? room content).map .byRef
    else if key = "Pinned" then (ofJson? room content).map .pinned
    else if key = "Named" then content.string?.map .named
    else content.null?.bind fun _ => atom? key
  | _, .str s => atom? s
  | _, _ => none

end TypeRef

namespace MethodRef

def toJson (m : MethodRef) : Json :=
  .obj [("declaring_type", .str m.declaringType), ("name", .str m.name),
    ("params", .arr (m.params.map TypeRef.toJson)), ("ret", m.ret.toJson)]

def ofJson? : Json.Decoder MethodRef
  | room + 1, j => do
    let [declaringType, name, params, ret] ← j.record? ["declaring_type", "name", "params", "ret"]
      | none
    return {
      declaringType := ← declaringType.string?
      name := ← name.string?
      params := ← Json.list? TypeRef.ofJson? room params
      ret := ← TypeRef.ofJson? room ret }
  | 0, _ => none

end MethodRef

namespace FieldRef

def toJson (f : FieldRef) : Json :=
  .obj [("declaring_type", .str f.declaringType), ("name", .str f.name)]

def ofJson? : Json.Decoder FieldRef
  | _ + 1, j => do
    let [declaringType, name] ← j.record? ["declaring_type", "name"] | none
    return { declaringType := ← declaringType.string?, name := ← name.string? }
  | 0, _ => none

end FieldRef

/-- The content of an instruction, if it has any. -/
def StoredOperand.toJson? : StoredOperand → Option Json
  | plain => none
  | slot i => some (.ofNat i.toNat)
  | int32 n => some (.num (.ofInt n.toInt))
  | int64 n => some (.num (.ofInt n.toInt))
  | real32 x => some x.toJson
  | real64 x => some x.toJson
  | text s => some (.str s)
  | method m => some m.toJson
  | target t => some (.ofNat t.toNat)
  | targets ts => some (.arr (ts.map fun t => .ofNat t.toNat))
  | width w => some (Enumerated.toJson w)
  | conversion k => some (Enumerated.toJson k)
  | type t => some t.toJson
  | field f => some f.toJson
  | byte n => some (.ofNat n.toNat)

/-- The instruction whose content is given. -/
def Form.ofJson? (room : Nat) (content : Json) : Form → Option Op
  | plain op => content.null?.map fun _ => op
  | slot make => content.uint16?.map make
  | int32 make => content.int32?.map make
  | int64 make => content.int64?.map make
  | real32 make =>
    match content with
    | .num n => n.toBinary32?.map make
    | _ => none
  | real64 make =>
    match content with
    | .num n => n.toBinary64?.map make
    | _ => none
  | text make => content.string?.map make
  | method make => (MethodRef.ofJson? room content).map make
  | target make => content.uint32?.map make
  | targets make => (Json.list? (fun _ => Json.uint32?) room content).map make
  | width make => (Enumerated.ofJson? room content).map make
  | conversion make => (Enumerated.ofJson? room content).map make
  | type make => (TypeRef.ofJson? room content).map make
  | field make => (FieldRef.ofJson? room content).map make
  | byte make => content.uint8?.map make

namespace Op

def toJson (op : Op) : Json :=
  match op.stored.operand.toJson? with
  | none => .str op.storedName
  | some content => .tagged op.storedName content

def ofJson? : Json.Decoder Op
  | room + 1, .obj [(key, content)] => (formNamed? key).bind (Form.ofJson? room content)
  | room, .str s => (formNamed? s).bind fun form =>
      match form with
      | .plain _ => Form.ofJson? room .null form
      | _ => none
  | _, _ => none

end Op

namespace Instruction

def toJson (i : Instruction) : Json :=
  .obj [("offset", .ofNat i.offset.toNat), ("op", i.op.toJson)]

def ofJson? : Json.Decoder Instruction
  | room + 1, j => do
    let [offset, op] ← j.record? ["offset", "op"] | none
    return { offset := ← offset.uint32?, op := ← Op.ofJson? room op }
  | 0, _ => none

end Instruction

namespace FieldDef

def toJson (f : FieldDef) : Json :=
  .obj [("name", .str f.name), ("ty", f.ty.toJson), ("is_static", .bool f.isStatic)]

def ofJson? : Json.Decoder FieldDef
  | room + 1, j => do
    let [name, ty, isStatic] ← j.record? ["name", "ty", "is_static"] | none
    return { name := ← name.string?, ty := ← TypeRef.ofJson? room ty, isStatic := ← isStatic.bool? }
  | 0, _ => none

end FieldDef

namespace MethodDef

def bodyToJson : Option (List Instruction) → Json
  | none => .null
  | some body => .arr (body.map Instruction.toJson)

/-- An absent body may be left out or null. -/
def bodyOfJson? (room : Nat) : Option Json → Option (Option (List Instruction))
  | none | some .null => some none
  | some j => (Json.list? Instruction.ofJson? room j).map some

def toJson (m : MethodDef) : Json :=
  .obj [("name", .str m.name), ("is_static", .bool m.isStatic),
    ("is_constructor", .bool m.isConstructor), ("params", .arr (m.params.map TypeRef.toJson)),
    ("ret", m.ret.toJson), ("locals", .arr (m.locals.map TypeRef.toJson)),
    ("body", bodyToJson m.body)]

def ofJson? : Json.Decoder MethodDef
  | room + 1, j => do
    let [some name, some isStatic, some isConstructor, some params, some ret, some locals, body] ←
      j.members? ["name", "is_static", "is_constructor", "params", "ret", "locals", "body"] | none
    return {
      name := ← name.string?
      isStatic := ← isStatic.bool?
      isConstructor := ← isConstructor.bool?
      params := ← Json.list? TypeRef.ofJson? room params
      ret := ← TypeRef.ofJson? room ret
      locals := ← Json.list? TypeRef.ofJson? room locals
      body := ← bodyOfJson? room body }
  | 0, _ => none

end MethodDef

namespace TypeDef

def toJson (t : TypeDef) : Json :=
  .obj [("name", .str t.name), ("kind", Enumerated.toJson t.kind),
    ("fields", .arr (t.fields.map FieldDef.toJson)),
    ("methods", .arr (t.methods.map MethodDef.toJson))]

def ofJson? : Json.Decoder TypeDef
  | room + 1, j => do
    let [name, kind, fields, methods] ← j.record? ["name", "kind", "fields", "methods"] | none
    return {
      name := ← name.string?
      kind := ← Enumerated.ofJson? room kind
      fields := ← Json.list? FieldDef.ofJson? room fields
      methods := ← Json.list? MethodDef.ofJson? room methods }
  | 0, _ => none

end TypeDef

namespace Module

def toJson (m : Module) : Json :=
  .obj [("name", .str m.name), ("types", .arr (m.types.map TypeDef.toJson))]

def ofJson? : Json.Decoder Module
  | room + 1, j => do
    let [name, types] ← j.record? ["name", "types"] | none
    return { name := ← name.string?, types := ← Json.list? TypeDef.ofJson? room types }
  | 0, _ => none

/-- The module as JSON text. -/
def toText (m : Module) : String := m.toJson.text

def ofText? (text : String) : Option Module :=
  (Json.parse? text).bind (ofJson? Json.maxNesting)

end Module

end CilMmix
