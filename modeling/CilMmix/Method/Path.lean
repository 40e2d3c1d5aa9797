import CilMmix.Fault

/-! Where control goes inside a method body. Branches name code offsets. -/

namespace CilMmix

/-- The position of the instruction at a code offset; of several with one offset the last counts. -/
def position? (body : List Instruction) (target : UInt32) : Option Nat :=
  (body.zipIdx.findRev? fun p => p.1.offset == target).map fun p => p.2

def position (body : List Instruction) (target : UInt32) : Except Fault Nat :=
  match position? body target with
  | some i => .ok i
  | none => .error (.badBranchTarget target)

/-- The offsets that the instructions branch to, in their order. -/
def targets (body : List Instruction) : List UInt32 :=
  body.filterMap fun i => i.op.branchTarget?

/-- Positions that follow an instruction: the one to go on with, and one to come back to. -/
structure Onward where
  ahead : Option Nat
  aside : Option Nat

/-- What follows the instruction at position `i`. -/
def onward (body : List Instruction) (i : Nat) : Flow → Except Fault Onward
  | .next => .ok ⟨some (i + 1), none⟩
  | .jump t => do return ⟨some (← position body t), none⟩
  | .branch t => do return ⟨some (i + 1), some (← position body t)⟩
  | .return => .ok ⟨none, none⟩

end CilMmix
