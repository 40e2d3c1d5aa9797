import CilMmix.Method.Walk

/-! Compiling a method. -/

namespace CilMmix

structure Options where
  /-- The method whose return stops the machine. -/
  entryPoint : String := "Main"
  /-- Whether each instruction is shown before its code. -/
  annotate : Bool := true
  /-- The address of the first instruction. -/
  textOrigin : Nat := 0x100

namespace MethodDef

def site (m : MethodDef) (options : Options) (frame : Frame) : Site :=
  ⟨frame, mangle m.name, m.name == options.entryPoint⟩

/-- What comes before the code of the instructions: the return address is saved, and the arguments
are moved behind the result. -/
def prologue (m : MethodDef) (frame : Frame) : Except Fault (List Line) := do
  let save := match ← frame.backupReg with
    | some r => [.ins .get [.reg r, .sym "rJ"]]
    | none => []
  let moves ← (copyWords 0 frame.params.offset frame.params.words).complete
  return .note (some (mangle m.name)) m.signature :: save ++ moves

/-- The assembly of a method. All its branches must have a target, also those that are not reached. -/
def compile (m : MethodDef) (options : Options) (session : Session) :
    Except Fault (List Line × Session) := do
  let (frame, layout) ← (Frame.build m).run session.layout
  let head ← m.prologue frame
  (targets m.code).forM fun t => discard (position m.code t)
  let route : Route := ⟨m.site options frame, options.annotate, m.code⟩
  let walk ← (Walk.start m.code { session with layout }).run route
  return (head ++ walk.lines ++ [.blank], walk.session)

end MethodDef

end CilMmix
