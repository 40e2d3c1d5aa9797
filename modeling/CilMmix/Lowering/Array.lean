import CilMmix.Lowering.Memory

/-! Code for arrays. An array value is the address of its first element and the number of elements,
which is also in memory in the word before the elements. -/

namespace CilMmix.Lower

/-- Replaces a count by a new array of so many elements. -/
def newArray (origin : String) (elem : TypeRef) : Lower (List Line) := do
  let stride := (← sizeOf elem).bytes
  let count ← pop
  let data ← count.above 1
  let bytes ← count.above 2
  let scaling ← scale bytes stride (count.index.val + 3)
  push origin (.array elem)
  return .ins .set [.reg bytes, .reg count] :: scaling ++
    [.ins .add [.reg bytes, .reg bytes, .imm wordBytes],
      .ins .pushj [.reg data, .sym "malloc"],
      .ins .stou [.reg count, .reg data, .imm 0],
      .ins .set [.reg bytes, .reg count],
      .ins .add [.reg count, .reg data, .imm wordBytes],
      .ins .set [.reg data, .reg bytes]]

def length (origin : String) : Lower (List Line) := do
  let array ← pop
  push origin (.primitive .uint64)
  return [.ins .sub [.reg array, .reg array, .imm wordBytes],
    .ins .ldo [.reg array, .reg array, .imm 0]]

def loadElement (i : Instruction) (w : Width) : Lower (List Line) := do
  let code ← supported i w.loadCode?
  let ty ← supported i w.loaded?
  let scratch ← top
  let index ← pop
  let array ← pop
  push i.op.mnemonic ty
  let into ← operand 0 0
  return (← scale index w.bytes scratch) ++ [.ins code [.reg into, .reg array, .reg index]]

def storeElement (i : Instruction) (w : Width) : Lower (List Line) := do
  let code ← supported i w.storeCode?
  let scratch ← top
  let value ← pop
  let index ← pop
  let array ← pop
  return (← scale index w.bytes scratch) ++ [.ins code [.reg value, .reg array, .reg index]]

def elementAddress (origin : String) (elem : TypeRef) : Lower (List Line) := do
  let stride := (← sizeOf elem).bytes
  let scratch ← top
  let index ← pop
  let array ← pop
  push origin (.byRef elem)
  let into ← operand 0 0
  return (← scale index stride scratch) ++ [.ins .addu [.reg into, .reg array, .reg index]]

end CilMmix.Lower
