import CilMmix.Fault

/-! The general registers. -/

namespace CilMmix

/-- General registers that one subroutine can name. -/
abbrev registerCount : Nat := 256

structure Reg where
  index : Fin registerCount
  deriving DecidableEq

namespace Reg

/-- The register that passes arguments to traps. -/
def trap : Reg := ⟨⟨255, by decide⟩⟩

/-- The register with an index, unless there are too few. -/
def ofIndex (index : Nat) : Except Fault Reg :=
  if h : index < registerCount then .ok ⟨⟨index, h⟩⟩ else .error (.registerExhausted index)

/-- The register a number of words above this one. -/
def above (r : Reg) (words : Nat) : Except Fault Reg := Reg.ofIndex (r.index.val + words)

def text (r : Reg) : String := "$" ++ toString r.index.val

end Reg

end CilMmix
