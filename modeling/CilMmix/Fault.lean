import CilMmix.Code.Mnemonic

/-! Why a module cannot be compiled. -/

namespace CilMmix

/-- A use of the operand stack or the frame that the bytecode does not allow. -/
inductive StackViolation where
  | popEmpty
  /-- An argument or local that the method does not have. -/
  | noSlot (index count : Nat)
  /-- An operand further below the top than the stack is deep. -/
  | tooDeep (index depth : Nat)
  | noReturnValue
  | other (text : String)

def StackViolation.message : StackViolation → String
  | popEmpty => "pop from an empty operand stack"
  | noSlot index count =>
    "slot " ++ toString index ++ " out of block (block holds " ++ toString count ++ ")"
  | tooDeep index depth =>
    "stack slot " ++ toString index ++ " below the top reaches into the fixed window (depth " ++
      toString depth ++ ")"
  | noReturnValue => "return value missing from the operand stack"
  | other text => text

inductive Fault where
  | unsupported (mnemonic : String) (offset : UInt32)
  | unknownSize (type : String)
  | stackDiscipline (violation : StackViolation)
  | registerExhausted (index : Nat)
  /-- The index of a register would be below zero. -/
  | indexUnderflow
  | unknownRoutine (name : String)
  | unresolvedField (field : String)
  | badBranchTarget (target : UInt32)
  /-- Two paths lead to one instruction with operand stacks of different shape. -/
  | shapeMismatch (offset : UInt32) (first later : String)
  /-- A value type that would have to hold itself. -/
  | recursiveType (name : String)
  | inMethod (method : String) (cause : Fault)

namespace Fault

def message : Fault → String
  | unsupported mnemonic offset =>
    "compile error: unsupported instruction '" ++ mnemonic ++ "' at " ++ Text.codeOffset offset
  | unknownSize type => "compile error: cannot determine the size of type '" ++ type ++ "'"
  | stackDiscipline violation => "compile error: stack discipline violated: " ++ violation.message
  | registerExhausted index =>
    "compile error: register index " ++ toString index ++ " exceeds the 256-register window"
  | indexUnderflow => "attempt to subtract with overflow"
  | unknownRoutine name => "compile error: no runtime stub named '" ++ name ++ "'"
  | unresolvedField field =>
    "compile error: field '" ++ field ++ "' does not resolve to a declared field"
  | badBranchTarget target =>
    "compile error: branch target " ++ Text.codeOffset target ++ " is not an instruction boundary"
  | shapeMismatch offset first later =>
    "compile error: stack shape mismatch at " ++ Text.codeOffset offset ++ "\n  first arrival: [" ++
      first ++ "]\n  this arrival:  [" ++ later ++ "]"
  | recursiveType name => "compile error: value type '" ++ name ++ "' contains itself"
  | inMethod method cause => "in method '" ++ method ++ "': " ++ cause.message

/-- The fault without the methods it was found in. -/
def rootCause : Fault → Fault
  | inMethod _ cause => cause.rootCause
  | fault => fault

/-- An instruction for which there is no code. -/
def ofUnsupported (i : Instruction) : Fault := .unsupported i.op.mnemonic i.offset

end Fault

end CilMmix
