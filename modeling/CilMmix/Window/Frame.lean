import CilMmix.Storage.Layout
import CilMmix.Window.Element

/-! The fixed part of a method's register window: the result, the parameters, the saved return address
if the method makes calls, and the local variables. Operands follow after it. -/

namespace CilMmix

/-- Neighbouring values of one purpose. -/
structure Block where
  /-- The number of values in front of the block. -/
  firstIndex : Nat
  /-- The first register. -/
  offset : Nat
  elems : List Element

namespace Block

def words (b : Block) : Nat := Element.totalWords b.elems

/-- One past the last register. -/
def stop (b : Block) : Nat := b.offset + b.words

/-- The number of values up to the end of the block. -/
def stopIndex (b : Block) : Nat := b.firstIndex + b.elems.length

def elem (b : Block) (index : Nat) : Except Fault Element :=
  match b.elems[index]? with
  | some e => .ok e
  | none => .error (.stackDiscipline (.noSlot index b.elems.length))

/-- The register of one word of a value. -/
def reg (b : Block) (index word : Nat) : Except Fault Reg := do
  Reg.ofIndex ((← b.elem index).offset + word)

end Block

/-- Computations that size types, up to the first fault. -/
abbrev Layout.Run := StateT Layout (Except Fault)

/-- The size of a type. -/
def Layout.size (ty : TypeRef) : Layout.Run Size := fun l =>
  match l.sizeOf ty with
  | (.ok s, l) => .ok (s, l)
  | (.error fault, _) => .error fault

namespace Block

/-- Values of given types and origins, one after the other. -/
def place : Nat → List (TypeRef × String) → Layout.Run (List Element)
  | _, [] => return []
  | offset, (ty, origin) :: rest => do
    let size ← Layout.size ty
    let elems ← place (offset + size.words) rest
    return ⟨offset, size, ty, some origin⟩ :: elems

/-- A block of such values after the other block. -/
def after (before : Block) (values : List (TypeRef × String)) : Layout.Run Block := do
  return ⟨before.stopIndex, before.stop, ← place before.stop values⟩

def empty : Block := ⟨0, 0, []⟩

end Block

structure Frame where
  ret : Block
  params : Block
  /-- The return address, while a call is under way. -/
  backup : Block
  locals : Block
  /-- Whether the method makes calls. -/
  calls : Bool

namespace Frame

/-- The first register for operands. -/
def stop (f : Frame) : Nat := f.locals.stop

def stopIndex (f : Frame) : Nat := f.locals.stopIndex

/-- Types with a name and a number as their origin. -/
def numbered (name : String) (tys : List TypeRef) : List (TypeRef × String) :=
  tys.mapIdx fun i ty => (ty, name ++ toString i)

def build (m : MethodDef) : Layout.Run Frame := do
  let calls := m.code.any fun i => i.op.isCall
  let ret ← Block.empty.after (if m.ret.isVoid then [] else [(m.ret, "ret")])
  let params ← ret.after (numbered "arg" m.params)
  let backup ← params.after (if calls then [(.primitive .nativeUInt, "rJ")] else [])
  let locals ← backup.after (numbered "loc" m.locals)
  if registerCount < locals.stop then throw (.registerExhausted (locals.stop - 1))
  return { ret, params, backup, locals, calls }

/-- The register for the return address, in a method that makes calls. -/
def backupReg (f : Frame) : Except Fault (Option Reg) :=
  if f.calls then (f.backup.reg 0 0).map some else .ok none

end Frame

end CilMmix
