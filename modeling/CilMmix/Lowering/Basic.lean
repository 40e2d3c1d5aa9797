import CilMmix.Assembly.Copy
import CilMmix.Assembly.Immediate
import CilMmix.Storage.Statics
import CilMmix.Window.OperandStack

/-! Code for single instructions: what it is written against, and its steps on the operand stack. -/

namespace CilMmix

/-- The method that code is for. -/
structure Site where
  frame : Frame
  /-- The label of the method. -/
  label : String
  /-- Whether a return from the method without a value stops the machine. -/
  halts : Bool

/-- The label of the instruction at a code offset. -/
def Site.branchLabel (site : Site) (offset : UInt32) : String :=
  site.label ++ "_" ++ toString offset.toNat

/-- What the code of an instruction depends on and changes. -/
structure LowerState extends Session where
  stack : OperandStack

abbrev Lower := StateT LowerState (Except Fault)

namespace Lower

def sizeOf (ty : TypeRef) : Lower Size := fun s =>
  match s.layout.sizeOf ty with
  | (.ok size, layout) => .ok (size, { s with layout })
  | (.error fault, _) => .error fault

def fieldOffset (f : FieldRef) : Lower Size := fun s =>
  match s.layout.fieldOffset f with
  | (.ok offset, layout) => .ok (offset, { s with layout })
  | (.error fault, _) => .error fault

def fieldType (f : FieldRef) : Lower TypeRef := do
  return (← (← get).layout.resolveField f).ty

/-- Storage of a string literal. -/
def literal (text : String) : Lower Allocation := fun s =>
  let (a, statics) := s.statics.literal text
  .ok (a, { s with statics })

/-- Storage of a static field. -/
def staticField (f : FieldRef) : Lower Allocation := do
  let size ← sizeOf (← fieldType f)
  fun s =>
    let (a, statics) := s.statics.field f.text size
    .ok (a, { s with statics })

def pushSized (ty : TypeRef) (size : Size) (origin : Option String) : Lower Unit := fun s => do
  return ((), { s with stack := ← s.stack.push ty size origin })

/-- Pushes a value of a type that the named operation makes. -/
def push (origin : String) (ty : TypeRef) : Lower Unit := do
  pushSized ty (← sizeOf ty) (some origin)

/-- Takes a value off and gives its first register. -/
def pop : Lower Reg := fun s => do
  let ((r, _), stack) ← s.stack.pop
  return (r, { s with stack })

/-- The value `index` places below the top. -/
def peek (index : Nat) : Lower Element := do (← get).stack.peek index

/-- The register of one word of that value. -/
def operand (index word : Nat) : Lower Reg := do (← get).stack.reg index word

/-- One past the registers in use. -/
def top : Lower Nat := return (← get).stack.top

/-- Pushes a number. -/
def constant (origin : String) (ty : TypeRef) (value : UInt64) : Lower (List Line) := do
  push origin ty
  return loadConstant (← operand 0 0) value

end Lower

end CilMmix
