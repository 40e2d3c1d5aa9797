import CilMmix.Bytes.Reader
import CilMmix.Code.Catalogue
import CilMmix.Code.Enumerated

/-! Modules as bytes. The parts of a structure follow each other; a choice is its number, then its
content. -/

namespace CilMmix

open Bytes (Reader)

namespace Enumerated

variable {α : Type} [Enumerated α]

def toBytes (a : α) : List UInt8 := Bytes.varint (number a)

def reader : Reader α := Bytes.variant numbered?

end Enumerated

namespace TypeRef

def toBytes : TypeRef → List UInt8
  | primitive p => Bytes.varint 0 ++ Enumerated.toBytes p
  | array elem => Bytes.varint 1 ++ elem.toBytes
  | anyArray => Bytes.varint 2
  | string => Bytes.varint 3
  | pointer target => Bytes.varint 4 ++ target.toBytes
  | byRef target => Bytes.varint 5 ++ target.toBytes
  | pinned inner => Bytes.varint 6 ++ inner.toBytes
  | named name => Bytes.varint 7 ++ Bytes.ofText name

def take (bs : List UInt8) : Except Bytes.Malformed (TypeRef × List UInt8) :=
  match _h : Bytes.takeVarint Bytes.VarintWidth.bits32.lastGroup Bytes.VarintWidth.bits32.groups bs with
  | .error e => .error e
  | .ok (0, rest) => (Enumerated.reader rest).map fun (p, rest) => (.primitive p, rest)
  | .ok (1, rest) => (take rest).map fun (t, rest) => (.array t, rest)
  | .ok (2, rest) => .ok (.anyArray, rest)
  | .ok (3, rest) => .ok (.string, rest)
  | .ok (4, rest) => (take rest).map fun (t, rest) => (.pointer t, rest)
  | .ok (5, rest) => (take rest).map fun (t, rest) => (.byRef t, rest)
  | .ok (6, rest) => (take rest).map fun (t, rest) => (.pinned t, rest)
  | .ok (7, rest) => (Bytes.text rest).map fun (s, rest) => (.named s, rest)
  | .ok _ => .error .unknownVariant
termination_by bs.length
decreasing_by all_goals exact Bytes.takeVarint_length _h

def reader : Reader TypeRef := take

end TypeRef

namespace MethodRef

def toBytes (m : MethodRef) : List UInt8 :=
  Bytes.ofText m.declaringType ++ Bytes.ofText m.name ++ Bytes.ofList TypeRef.toBytes m.params ++
    m.ret.toBytes

def reader : Reader MethodRef := do
  let declaringType ← Bytes.text
  let name ← Bytes.text
  let params ← Bytes.list TypeRef.reader
  let ret ← TypeRef.reader
  return ⟨declaringType, name, params, ret⟩

end MethodRef

namespace FieldRef

def toBytes (f : FieldRef) : List UInt8 := Bytes.ofText f.declaringType ++ Bytes.ofText f.name

def reader : Reader FieldRef := do
  let declaringType ← Bytes.text
  let name ← Bytes.text
  return ⟨declaringType, name⟩

end FieldRef

def StoredOperand.toBytes : StoredOperand → List UInt8
  | plain => []
  | slot i => Bytes.varint i.toNat
  | int32 n => Bytes.varint (Bytes.zigzag n.toInt)
  | int64 n => Bytes.varint (Bytes.zigzag n.toInt)
  | real32 x => Bytes.toLittleEndian x.bits.toNat 4
  | real64 x => Bytes.toLittleEndian x.bits.toNat 8
  | text s => Bytes.ofText s
  | method m => m.toBytes
  | target t => Bytes.varint t.toNat
  | targets ts => Bytes.ofList (fun t => Bytes.varint t.toNat) ts
  | width w => Enumerated.toBytes w
  | conversion k => Enumerated.toBytes k
  | type t => t.toBytes
  | field f => f.toBytes
  | byte n => [n]

/-- A code offset. -/
def Bytes.offset : Reader UInt32 := do
  return UInt32.ofNat (← varintOf .bits32)

/-- Reads the operand that the instruction waits for. -/
def Form.reader : Form → Reader Op
  | plain op => return op
  | slot make => return make (UInt16.ofNat (← Bytes.varintOf .bits16))
  | int32 make => return make (Int32.ofInt (Bytes.unzigzag (← Bytes.varintOf .bits32)))
  | int64 make => return make (Int64.ofInt (Bytes.unzigzag (← Bytes.varintOf .bits64)))
  | real32 make => return make ⟨UInt32.ofNat (Bytes.littleEndian (← Bytes.block 4))⟩
  | real64 make => return make ⟨UInt64.ofNat (Bytes.littleEndian (← Bytes.block 8))⟩
  | text make => return make (← Bytes.text)
  | method make => return make (← MethodRef.reader)
  | target make => return make (← Bytes.offset)
  | targets make => return make (← Bytes.list Bytes.offset)
  | width make => return make (← Enumerated.reader)
  | conversion make => return make (← Enumerated.reader)
  | type make => return make (← TypeRef.reader)
  | field make => return make (← FieldRef.reader)
  | byte make => return make (← Bytes.byte)

namespace Op

def toBytes (op : Op) : List UInt8 :=
  Bytes.varint op.stored.number ++ op.stored.operand.toBytes

def reader : Reader Op := do
  let form ← Bytes.variant formNumbered?
  form.reader

end Op

namespace Instruction

def toBytes (i : Instruction) : List UInt8 := Bytes.varint i.offset.toNat ++ i.op.toBytes

def reader : Reader Instruction := do
  let offset ← Bytes.offset
  let op ← Op.reader
  return ⟨offset, op⟩

end Instruction

namespace FieldDef

def toBytes (f : FieldDef) : List UInt8 :=
  Bytes.ofText f.name ++ f.ty.toBytes ++ Bytes.ofBool f.isStatic

def reader : Reader FieldDef := do
  let name ← Bytes.text
  let ty ← TypeRef.reader
  let isStatic ← Bytes.bool
  return ⟨name, ty, isStatic⟩

end FieldDef

namespace MethodDef

def toBytes (m : MethodDef) : List UInt8 :=
  Bytes.ofText m.name ++ Bytes.ofBool m.isStatic ++ Bytes.ofBool m.isConstructor ++
    Bytes.ofList TypeRef.toBytes m.params ++ m.ret.toBytes ++
    Bytes.ofList TypeRef.toBytes m.locals ++
    Bytes.ofOption (Bytes.ofList Instruction.toBytes) m.body

def reader : Reader MethodDef := do
  let name ← Bytes.text
  let isStatic ← Bytes.bool
  let isConstructor ← Bytes.bool
  let params ← Bytes.list TypeRef.reader
  let ret ← TypeRef.reader
  let locals ← Bytes.list TypeRef.reader
  let body ← Bytes.option (Bytes.list Instruction.reader)
  return ⟨name, isStatic, isConstructor, params, ret, locals, body⟩

end MethodDef

namespace TypeDef

def toBytes (t : TypeDef) : List UInt8 :=
  Bytes.ofText t.name ++ Enumerated.toBytes t.kind ++ Bytes.ofList FieldDef.toBytes t.fields ++
    Bytes.ofList MethodDef.toBytes t.methods

def reader : Reader TypeDef := do
  let name ← Bytes.text
  let kind ← Enumerated.reader
  let fields ← Bytes.list FieldDef.reader
  let methods ← Bytes.list MethodDef.reader
  return ⟨name, kind, fields, methods⟩

end TypeDef

namespace Module

def toBytes (m : Module) : List UInt8 :=
  Bytes.ofText m.name ++ Bytes.ofList TypeDef.toBytes m.types

def reader : Reader Module := do
  let name ← Bytes.text
  let types ← Bytes.list TypeDef.reader
  return ⟨name, types⟩

/-- Reads a module; bytes after it do not matter. -/
def ofBytes (bs : List UInt8) : Except Bytes.Malformed Module :=
  (reader bs).map Prod.fst

end Module

end CilMmix
