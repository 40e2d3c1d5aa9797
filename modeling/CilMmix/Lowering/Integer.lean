import CilMmix.Lowering.Basic

/-! Code for arithmetic, comparisons, conversions and branches. -/

namespace CilMmix

/-- The comparison, and the operation that makes its outcome a truth value. -/
def Comparison.codes : Comparison → Opcode × Opcode
  | eq => (.cmp, .zsz)
  | gt => (.cmp, .zsp)
  | gtUn => (.cmpu, .zsp)
  | lt => (.cmp, .zsn)
  | ltUn => (.cmpu, .zsn)

/-- The comparison, and the branch on its outcome. -/
def Condition.codes : Condition → Opcode × Opcode
  | eq => (.cmp, .bz)
  | ge => (.cmp, .bnn)
  | gt => (.cmp, .bp)
  | le => (.cmp, .bnp)
  | lt => (.cmp, .bn)
  | neUn => (.cmpu, .bnz)
  | geUn => (.cmpu, .bnn)
  | gtUn => (.cmpu, .bp)
  | leUn => (.cmpu, .bnp)
  | ltUn => (.cmpu, .bn)

/-- The type a conversion gives, unless it is to floating point. -/
def Conversion.target? : Conversion → Option Primitive
  | i1 => some .int8
  | u1 => some .uint8
  | i2 => some .int16
  | u2 => some .uint16
  | i4 => some .int32
  | u4 => some .uint32
  | i8 | i => some .int64
  | u8 | u => some .uint64
  | r4 | r8 | rUn => none

/-- Only conversions to one and two bytes change the register. -/
def Conversion.narrow (r : Reg) : Conversion → List Line
  | i1 | u1 => [.ins .and [.reg r, .reg r, .imm 255]]
  | i2 | u2 => [.ins .slu [.reg r, .reg r, .imm 48], .ins .sru [.reg r, .reg r, .imm 48]]
  | i4 | i8 | u4 | u8 | i | u | r4 | r8 | rUn => []

namespace Lower

/-- Combines the two top values in the place of the lower one. -/
def binary (code : Opcode) : Lower (List Line) := do
  let a ← operand 1 0
  let b ← operand 0 0
  let _ ← pop
  return [.ins code [.reg a, .reg a, .reg b]]

/-- A division leaves the remainder in a register of its own. -/
def remainder (divide : Opcode) : Lower (List Line) := do
  let a ← operand 1 0
  return (← binary divide) ++ [.ins .get [.reg a, .sym "rR"]]

def arith : Arith → Lower (List Line)
  | .add => binary .add
  | .sub => binary .sub
  | .mul => binary .mul
  | .div => binary .div
  | .divUn => binary .divu
  | .rem => remainder .div
  | .remUn => remainder .divu
  | .and => binary .and
  | .or => binary .or
  | .xor => binary .xor
  | .shl => binary .slu
  | .shr => binary .sr
  | .shrUn => binary .sru

def negate : Lower (List Line) := do
  let r ← operand 0 0
  return [.ins .neg [.reg r, .imm 0, .reg r]]

def complement : Lower (List Line) := do
  let r ← operand 0 0
  return [.ins .nor [.reg r, .reg r, .imm 0]]

def compare (origin : String) (c : Comparison) : Lower (List Line) := do
  let a ← operand 1 0
  let b ← operand 0 0
  let _ ← pop
  let _ ← pop
  push origin (.primitive .bool)
  return [.ins c.codes.1 [.reg a, .reg a, .reg b], .ins c.codes.2 [.reg a, .reg a, .imm 1]]

/-- Branches on a comparison of the two top values. -/
def compareBranch (c : Condition) (label : String) : Lower (List Line) := do
  let a ← operand 1 0
  let b ← operand 0 0
  let _ ← pop
  let _ ← pop
  return [.ins c.codes.1 [.reg a, .reg a, .reg b], .ins c.codes.2 [.reg a, .sym label]]

/-- Branches on the top value. -/
def testBranch (code : Opcode) (label : String) : Lower (List Line) := do
  let r ← operand 0 0
  let _ ← pop
  return [.ins code [.reg r, .sym label]]

/-- Converts the top value. No overflow is reported. -/
def convert (i : Instruction) (k : Conversion) : Lower (List Line) := do
  match k.target? with
  | none => throw (.ofUnsupported i)
  | some target =>
    let r ← pop
    push i.op.mnemonic (.primitive target)
    return k.narrow r

end Lower

end CilMmix
