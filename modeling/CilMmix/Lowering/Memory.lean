import CilMmix.Lowering.Basic

/-! Code for variables and for memory: parameters and local variables, indirect access, fields, static
storage and string literals. -/

namespace CilMmix

/-- The load of a width; there are none for floating point. -/
def Width.loadCode? : Width → Option Opcode
  | i1 => some .ldb
  | u1 => some .ldbu
  | i2 => some .ldw
  | u2 => some .ldwu
  | i4 => some .ldt
  | u4 => some .ldtu
  | i8 | i | ref => some .ldo
  | r4 | r8 => none

/-- What the name of that load has after the letters all loads begin with. -/
def Width.suffix? (w : Width) : Option String :=
  w.loadCode?.map fun code => String.ofList (code.text.toList.drop 2)

/-- The store of a width; signed and unsigned values are stored alike. -/
def Width.storeCode? : Width → Option Opcode
  | i1 | u1 => some .stb
  | i2 | u2 => some .stw
  | i4 | u4 => some .stt
  | i8 | i | ref => some .sto
  | r4 | r8 => none

namespace Lower

/-- Pushes the value of a variable, which keeps its origin. -/
def loadSlot (b : Block) (index : Nat) : Lower (List Line) := do
  let e ← b.elem index
  pushSized e.ty e.size e.origin
  (List.range e.size.words).mapM fun word => do
    let into ← operand 0 word
    let value ← b.reg index word
    return .ins .set [.reg into, .reg value]

/-- Moves the top value into a variable. -/
def storeSlot (b : Block) (index : Nat) : Lower (List Line) := do
  let e ← b.elem index
  let lines ← (List.range e.size.words).mapM fun word => do
    let into ← b.reg index word
    let value ← operand 0 word
    return .ins .set [.reg into, .reg value]
  let _ ← pop
  return lines

/-- Pushes the place of a variable in the register stack. -/
def slotAddress (origin : String) (b : Block) (index : Nat) : Lower (List Line) := do
  let e ← b.elem index
  push origin (.primitive .nativeUInt)
  let r ← operand 0 0
  let sum ← addNumber r (e.offset * wordBytes) (← top)
  return .ins .get [.reg r, .sym "rO"] :: sum

/-- What there is for a width, or the fault that there is nothing. -/
def supported (i : Instruction) {α : Type} : Option α → Lower α
  | some a => return a
  | none => throw (.ofUnsupported i)

def loadIndirect (i : Instruction) (w : Width) : Lower (List Line) := do
  let code ← supported i w.loadCode?
  let ty ← supported i w.loaded?
  let address ← pop
  push i.op.mnemonic ty
  return [.ins code [.reg (← operand 0 0), .reg address, .imm 0]]

def storeIndirect (i : Instruction) (w : Width) : Lower (List Line) := do
  let code ← supported i w.storeCode?
  let value ← pop
  let address ← pop
  return [.ins code [.reg value, .reg address, .imm 0]]

/-- Pushes the address of the text and its length in bytes. -/
def loadString (origin : String) (text : String) : Lower (List Line) := do
  let a ← literal text
  push origin .string
  let address := loadConstant (← operand 0 0) (UInt64.ofNat (a.address.add Statics.headerSize).raw)
  let length := loadConstant (← operand 0 1) (UInt64.ofNat (Statics.textBytes text).length)
  return address ++ length

/-- Replaces an address or a value by a field of it. From memory the last word comes first, so that
the register of the address is overwritten last. -/
def loadField (origin : String) (f : FieldRef) : Lower (List Line) := do
  let ty ← fieldType f
  let offset ← fieldOffset f
  let object ← peek 0
  let source ← pop
  push origin ty
  let words := (← peek 0).size.words
  if (← get).layout.isStruct object.ty then
    (copyWords (source.index.val + offset.words) source.index.val words).complete
  else
    let scratch ← top
    let lines ← (List.range words).reverse.mapM fun word => do
      let into ← operand 0 word
      accessAt .ldou (.reg into) source (offset.roundedBytes + word * wordBytes) scratch
    return lines.flatten

def storeField (f : FieldRef) : Lower (List Line) := do
  let offset ← fieldOffset f
  let target ← operand 1 0
  let words := (← peek 0).size.words
  let scratch ← top
  let lines ← (List.range words).mapM fun word => do
    let value ← operand 0 word
    accessAt .stou (.reg value) target (offset.roundedBytes + word * wordBytes) scratch
  let _ ← pop
  let _ ← pop
  return lines.flatten

def fieldAddress (origin : String) (f : FieldRef) : Lower (List Line) := do
  let offset ← fieldOffset f
  let ty ← fieldType f
  let scratch ← top
  let object ← pop
  push origin (.byRef ty)
  addNumber object offset.roundedBytes scratch

def field (origin : String) (f : FieldRef) : FieldAccess → Lower (List Line)
  | .load => loadField origin f
  | .address => fieldAddress origin f
  | .store => storeField f

/-- Loads from static storage. The address is in the first register of the value, which comes last. -/
def loadStatic (origin : String) (f : FieldRef) : Lower (List Line) := do
  let a ← staticField f
  let ty ← fieldType f
  let address ← Reg.ofIndex (← top)
  push origin ty
  let words := (← peek 0).size.words
  let lines ← (List.range words).reverse.mapM fun word => do
    let into ← operand 0 word
    return .ins .ldou [.reg into, .reg address, .imm (word * wordBytes)]
  return loadConstant address (UInt64.ofNat a.address.raw) ++ lines

def storeStatic (f : FieldRef) : Lower (List Line) := do
  let a ← staticField f
  let address ← Reg.ofIndex (← top)
  let words := (← peek 0).size.words
  let lines ← (List.range words).mapM fun word => do
    let value ← operand 0 word
    return .ins .stou [.reg value, .reg address, .imm (word * wordBytes)]
  let _ ← pop
  return loadConstant address (UInt64.ofNat a.address.raw) ++ lines

def staticAddress (origin : String) (f : FieldRef) : Lower (List Line) := do
  let a ← staticField f
  constant origin (.primitive .nativeUInt) (UInt64.ofNat a.address.raw)

def static (origin : String) (f : FieldRef) : FieldAccess → Lower (List Line)
  | .load => loadStatic origin f
  | .address => staticAddress origin f
  | .store => storeStatic f

/-- Clears the words of a value in memory. -/
def clear (ty : TypeRef) : Lower (List Line) := do
  let words := (← sizeOf ty).words
  let scratch ← top
  let address ← pop
  let lines ← (List.range words).mapM fun (word : Nat) =>
    accessAt .stco (.imm 0) address (word * wordBytes) scratch
  return lines.flatten

def pushSize (origin : String) (ty : TypeRef) : Lower (List Line) := do
  let size ← sizeOf ty
  constant origin (.primitive .uint64) (UInt64.ofNat size.roundedBytes)

end Lower

end CilMmix
