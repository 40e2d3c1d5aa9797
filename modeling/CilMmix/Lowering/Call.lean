import CilMmix.Lowering.Basic

/-! Code for calls and returns. The caller leaves one register free below the arguments; the machine
numbers the callee's registers from the one after it. -/

namespace CilMmix.Lower

def call (origin : String) (m : MethodRef) : Lower (List Line) := do
  let stop ← top
  m.params.forM fun _ => discard pop
  let base ← top
  let moves ← (copyWords base (base + 1) (stop - base)).complete
  let hole ← Reg.ofIndex base
  push origin m.ret
  return moves ++ [.ins .pushj [.reg hole, .sym (mangle m.name)]]

/-- Moves the result to the start of the window. The machine hands the last of the registers to the
caller's free one and the others to those after it, so the first word goes last; a result without words
has no last register. -/
def giveBack (f : Frame) : Lower (List Line) := do
  let words := f.ret.words
  let stop ← top
  if stop < f.stop + words then throw (.stackDiscipline .noReturnValue)
  else if words = 0 then throw .indexUnderflow
  else
    let source := stop - words
    let first ← (copyWords source (f.ret.offset + words - 1) 1).complete
    let others ← (copyWords (source + 1) f.ret.offset (words - 1)).complete
    let _ ← pop
    return first ++ others ++ [.ins .pop [.imm words, .imm 0]]

/-- How a method without a result ends. -/
def stopLines (halts : Bool) : List Line :=
  if halts then
    [.ins .set [.reg .trap, .imm 0], .ins .trap [.imm 0, .sym "Halt", .imm 0]]
  else [.ins .pop [.imm 0, .imm 0]]

def ret (site : Site) : Lower (List Line) := do
  let link := match ← site.frame.backupReg with
    | some r => [.ins .put [.sym "rJ", .reg r]]
    | none => []
  let leave ← if site.frame.ret.elems.isEmpty then pure (stopLines site.halts)
    else giveBack site.frame
  let remark := if (← get).stack.elems.isEmpty then [] else [.comment "stack not empty !!"]
  return link ++ leave ++ remark

end CilMmix.Lower
