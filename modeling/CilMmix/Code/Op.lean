import CilMmix.Code.Operand
import CilMmix.Numeric.Binary

/-! The instruction set of the stack bytecode. Short and long encodings of an instruction are one
here, and instructions that differ only in the operation they apply share a constructor. -/

namespace CilMmix

/-- A parameter or a local variable. -/
inductive Variable where
  | arg (index : UInt16)
  | loc (index : UInt16)
  deriving DecidableEq

inductive Literal where
  | null
  | int32 (n : Int32)
  | int64 (n : Int64)
  | real32 (x : Binary32)
  | real64 (x : Binary64)
  | str (s : String)
  deriving DecidableEq

/-- Operations on two integers; `Un` marks the unsigned ones. -/
inductive Arith where
  | add
  | sub
  | mul
  | div
  | divUn
  | rem
  | remUn
  | and
  | or
  | xor
  | shl
  | shr
  | shrUn
  deriving DecidableEq

/-- Operations that report an overflow. -/
inductive CheckedArith where
  | add
  | addUn
  | sub
  | subUn
  | mul
  | mulUn
  deriving DecidableEq

/-- Comparisons that leave a truth value. -/
inductive Comparison where
  | eq
  | gt
  | gtUn
  | lt
  | ltUn
  deriving DecidableEq

/-- Conditions of a branch that compares two values. -/
inductive Condition where
  | eq
  | ge
  | gt
  | le
  | lt
  | neUn
  | geUn
  | gtUn
  | leUn
  | ltUn
  deriving DecidableEq

/-- What a conversion says about values that do not fit. -/
inductive OverflowCheck where
  | none
  | signed
  | unsigned
  deriving DecidableEq

inductive FieldAccess where
  | load
  | address
  | store
  deriving DecidableEq

inductive Op where
  | nop
  | breakpoint
  | load (v : Variable)
  | address (v : Variable)
  | store (v : Variable)
  | push (l : Literal)
  | dup
  | pop
  | jmp (m : MethodRef)
  | call (m : MethodRef)
  | calli
  | callvirt (m : MethodRef)
  | ret
  | br (target : UInt32)
  | brFalse (target : UInt32)
  | brTrue (target : UInt32)
  | brIf (c : Condition) (target : UInt32)
  | switch (targets : List UInt32)
  | leave (target : UInt32)
  | endfinally
  | endfilter
  | throw
  | rethrow
  | ldind (w : Width)
  | stind (w : Width)
  | cpblk
  | initblk
  | localloc
  | arith (a : Arith)
  | neg
  | not
  | checked (a : CheckedArith)
  | ckfinite
  | conv (check : OverflowCheck) (target : Conversion)
  | compare (c : Comparison)
  | newobj (m : MethodRef)
  | castclass (t : TypeRef)
  | isinst (t : TypeRef)
  | box (t : TypeRef)
  | unbox (t : TypeRef)
  | unboxAny (t : TypeRef)
  | field (a : FieldAccess) (f : FieldRef)
  | staticField (a : FieldAccess) (f : FieldRef)
  | ldobj (t : TypeRef)
  | stobj (t : TypeRef)
  | cpobj (t : TypeRef)
  | initobj (t : TypeRef)
  | sizeof (t : TypeRef)
  | ldtoken
  | ldftn (m : MethodRef)
  | ldvirtftn (m : MethodRef)
  | mkrefany (t : TypeRef)
  | refanyval (t : TypeRef)
  | refanytype
  | arglist
  | newarr (elem : TypeRef)
  | ldlen
  | ldelema (elem : TypeRef)
  | ldelem (w : Width)
  | stelem (w : Width)
  | ldelemAny (elem : TypeRef)
  | stelemAny (elem : TypeRef)
  | unaligned (alignment : UInt8)
  | volatile
  | tail
  | constrained (t : TypeRef)
  | readonly
  | no (checks : UInt8)

/-- An instruction at its code offset. -/
structure Instruction where
  offset : UInt32
  op : Op

/-- How control leaves an instruction. -/
inductive Flow where
  | next
  | jump (target : UInt32)
  /-- To the target, or on to the next instruction. -/
  | branch (target : UInt32)
  | return
  deriving DecidableEq

namespace Op

/-- A switch counts as falling through. -/
def flow : Op → Flow
  | br t => .jump t
  | brFalse t | brTrue t | brIf _ t => .branch t
  | ret => .return
  | _ => .next

def branchTarget? (op : Op) : Option UInt32 :=
  match op.flow with
  | .jump t | .branch t => some t
  | .next | .return => none

/-- Whether the instruction needs a subroutine call. -/
def isCall : Op → Bool
  | call _ | calli | callvirt _ | newarr _ => true
  | _ => false

end Op

end CilMmix
