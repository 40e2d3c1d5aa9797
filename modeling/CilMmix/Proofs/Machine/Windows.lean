import CilMmix.Proofs.Machine.Moves

/-! The register windows of calls. A call names a register, the hole: the callee numbers its registers
from the one after it, and a return fills the caller's registers from the hole on. -/

namespace CilMmix

namespace Registers

/-- The registers of a callee. -/
def pushed (r : Registers) (hole : Nat) : Registers := fun k => r (hole + 1 + k)

/-- What a return of so many words hands over: the last register first, then the others. -/
def handed (r : Registers) : Nat → List Word
  | 0 => []
  | n + 1 => r n :: r.read 0 n

@[simp] theorem length_handed (r : Registers) (n : Nat) : (r.handed n).length = n := by
  cases n <;> simp [handed]

/-- The registers of the caller after a return of so many words. Those after the words are empty. -/
def popped (r callee : Registers) (hole words : Nat) : Registers := fun k =>
  if k < hole then r k else ((callee.handed words)[k - hole]?).getD 0

theorem popped_of_lt (r callee : Registers) {hole k : Nat} (words : Nat) (h : k < hole) :
    r.popped callee hole words k = r k := if_pos h

theorem read_popped (r callee : Registers) (hole words : Nat) :
    (r.popped callee hole words).read hole words = callee.handed words := by
  refine List.ext_getElem (by simp) fun k hk hk' => ?_
  have hge : ¬ hole + k < hole := by omega
  simp only [read, List.getElem_map, List.getElem_range, popped, if_neg hge, Nat.add_sub_cancel_left,
    List.getElem?_eq_getElem hk', Option.getD_some]

end Registers

/-- The machine at the first line of a callee. -/
def Machine.call (m : Machine) (hole : Nat) (link : Word) : Machine where
  regs := m.regs.pushed hole
  special := Function.update m.special "rJ" link

end CilMmix
