import CilMmix.Assembly.Constant

/-! Operations with a number that may be too large for the operand field; it then goes through a
scratch register. -/

namespace CilMmix

/-- The largest number in an operand field. -/
def maxImmediate : Nat := 255

/-- A number as an operand, and the lines that must come before. -/
def immediate (value scratch : Nat) : Except Fault (List Line × Operand) :=
  if value ≤ maxImmediate then .ok ([], .imm value)
  else do
    let r ← Reg.ofIndex scratch
    return (loadConstant r (UInt64.ofNat value), .reg r)

/-- Adds a number to a register. -/
def addNumber (r : Reg) (value scratch : Nat) : Except Fault (List Line) := do
  let (before, operand) ← immediate value scratch
  return before ++ [.ins .add [.reg r, .reg r, operand]]

/-- A load or store at a number of bytes from an address. -/
def accessAt (code : Opcode) (x : Operand) (base : Reg) (bytes scratch : Nat) :
    Except Fault (List Line) := do
  let (before, operand) ← immediate bytes scratch
  return before ++ [.ins code [x, .reg base, operand]]

/-- Multiplies an index by the distance between elements; elements without size count as bytes. -/
def scale (r : Reg) (stride scratch : Nat) : Except Fault (List Line) :=
  if stride ≤ 1 then .ok []
  else if stride = 1 <<< stride.log2 then .ok [.ins .slu [.reg r, .reg r, .imm stride.log2]]
  else do
    let (before, operand) ← immediate stride scratch
    return before ++ [.ins .mulu [.reg r, .reg r, operand]]

end CilMmix
