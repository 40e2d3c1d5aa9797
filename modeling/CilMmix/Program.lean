import CilMmix.Assembly.Routine
import CilMmix.Method.Compile

/-! Compiling a module. -/

namespace CilMmix

namespace MethodDef

/-- Code for a method: an empty body stands for a routine of the runtime library. -/
def assemble (m : MethodDef) (options : Options) (session : Session) :
    Except Fault (List Line × Session) :=
  if m.code.isEmpty then do return (← Routine.named m.name, session)
  else m.compile options session

/-- Whether a method is compiled with its module. -/
def isCompiled (m : MethodDef) : Bool := m.isStatic && !m.isConstructor && m.body.isSome

end MethodDef

namespace Module

/-- The methods that are compiled, each with its type's name and its own as one text. -/
def compiledMethods (m : Module) : List (String × MethodDef) :=
  (m.types.filter fun t => t.kind != .interfaceType).flatMap fun t =>
    (t.methods.filter MethodDef.isCompiled).map fun d => (t.name ++ "::" ++ d.name, d)

/-- Code for methods one after the other. -/
def assembleAll (options : Options) :
    List (String × MethodDef) → Session → Except Fault (List Line × Session)
  | [], session => .ok ([], session)
  | (name, d) :: rest, session =>
    match d.assemble options session with
    | .error fault => .error (.inMethod name fault)
    | .ok (lines, session) => do
      let (more, session) ← assembleAll options rest session
      return (lines ++ more, session)

/-- The assembly of a module: its methods, then the data segment. -/
def compile (m : Module) (options : Options) : Except Fault (List Line) := do
  let (lines, session) ← assembleAll options m.compiledMethods (.ofModule m)
  return .ins .loc [.hex 1 options.textOrigin] :: lines ++ session.statics.lines

end Module

end CilMmix
