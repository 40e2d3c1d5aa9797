import CilMmix.Assembly.Writer
import CilMmix.Lowering.Array
import CilMmix.Lowering.Call
import CilMmix.Lowering.Integer
import CilMmix.Lowering.Memory

/-! Code for one instruction of any kind. -/

namespace CilMmix

/-- The part of the frame that holds a variable, and its place there. -/
def Variable.slot (f : Frame) : Variable → Block × Nat
  | arg i => (f.params, i.toNat)
  | loc i => (f.locals, i.toNat)

namespace Lower

def literalValue (i : Instruction) : Literal → Lower (List Line)
  | .null => constant i.op.mnemonic (.primitive .nativeUInt) 0
  | .int32 n => constant i.op.mnemonic (.primitive .int32) n.toInt64.toUInt64
  | .int64 n => constant i.op.mnemonic (.primitive .int64) n.toUInt64
  | .str text => loadString i.op.mnemonic text
  | .real32 _ | .real64 _ => throw (.ofUnsupported i)

/-- Pushes the top value once more, with its origin. -/
def duplicate : Lower (List Line) := do
  let e ← peek 0
  let lines ← (copyWords e.offset e.stop e.size.words).complete
  pushSized e.ty e.size e.origin
  return lines

/-- The lines of one instruction, without its label. Conversions with and without a check are alike. -/
def instruction (site : Site) (i : Instruction) : Lower (List Line) :=
  match i.op with
  | .nop => return []
  | .load v => loadSlot (v.slot site.frame).1 (v.slot site.frame).2
  | .store v => storeSlot (v.slot site.frame).1 (v.slot site.frame).2
  | .address v => slotAddress i.op.mnemonic (v.slot site.frame).1 (v.slot site.frame).2
  | .push l => literalValue i l
  | .dup => duplicate
  | .pop => do
    let _ ← pop
    return []
  | .call m => call i.op.mnemonic m
  | .ret => ret site
  | .br t => return [.ins .jmp [.sym (site.branchLabel t)]]
  | .brFalse t => testBranch .bz (site.branchLabel t)
  | .brTrue t => testBranch .bnz (site.branchLabel t)
  | .brIf c t => compareBranch c (site.branchLabel t)
  | .ldind w => loadIndirect i w
  | .stind w => storeIndirect i w
  | .arith a => arith a
  | .neg => negate
  | .not => complement
  | .conv _ k => convert i k
  | .compare c => compare i.op.mnemonic c
  | .field a f => field i.op.mnemonic f a
  | .staticField a f => static i.op.mnemonic f a
  | .initobj t => clear t
  | .sizeof t => pushSize i.op.mnemonic t
  | .newarr elem => newArray i.op.mnemonic elem
  | .ldlen => length i.op.mnemonic
  | .ldelem w => loadElement i w
  | .stelem w => storeElement i w
  | .ldelema elem => elementAddress i.op.mnemonic elem
  | _ => throw (.ofUnsupported i)

end Lower

/-- The lines of one instruction with its label, after a remark if those are wanted. -/
def piece (annotate : Bool) (label : Option String) (i : Instruction) (lines : List Line) :
    List Line :=
  ((({ annotate : Writer }.remark i.text).setLabel? label).emitAll lines).finish

/-- The piece of one instruction. -/
def Lower.piece (annotate : Bool) (site : Site) (label : Option String) (i : Instruction) :
    Lower (List Line) := do
  return CilMmix.piece annotate label i (← instruction site i)

end CilMmix
