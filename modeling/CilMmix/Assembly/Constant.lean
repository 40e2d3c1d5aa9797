import CilMmix.Assembly.Line

/-! Loading a constant into a register, sixteen bits at a time. -/

namespace CilMmix

/-- The four sixteen-bit parts of a word, lowest first: the operation that sets a register to the
part and clears the rest, and the one that adds the part. -/
def wydeOps : List (Opcode × Opcode) :=
  [(.setl, .orl), (.setml, .orml), (.setmh, .ormh), (.seth, .orh)]

/-- Part `i` of a word, the lowest part being part 0. -/
def wyde (value : UInt64) (i : Nat) : Nat := value.toNat >>> (16 * i) % 0x10000

/-- The largest number that one operation sets. -/
def maxWyde : Nat := 0xFFFF

/-- Small negative numbers are set positive and negated. All others are put together from the parts
that are not zero. -/
def loadConstant (r : Reg) (value : UInt64) : List Line :=
  if UInt64.size - maxWyde ≤ value.toNat then
    [.ins .setl [.reg r, .imm (UInt64.size - value.toNat)], .ins .neg [.reg r, .imm 0, .reg r]]
  else
    let parts := (wydeOps.mapIdx fun i ops => (ops, wyde value i)).filter fun p => p.2 != 0
    match parts with
    | [] => [.ins .set [.reg r, .imm 0]]
    | ((first, _), n) :: parts =>
      .ins first [.reg r, .imm n] :: parts.map fun p => .ins p.1.2 [.reg r, .imm p.2]

end CilMmix
