import CilMmix.Command.Argument
import CilMmix.Command.Directory
import CilMmix.Module.File
import CilMmix.Module.Listing
import CilMmix.Program

/-! What the program can be asked to do, and what comes of it. -/

namespace CilMmix

inductive Invocation where
  | version
  /-- Compiles a module. -/
  | build (module : String) (output : Option String) (options : Options)
  /-- Prints the listing of a module. -/
  | dump (module : String)
  /-- Stores a module in the binary form. -/
  | pack (module output : String)

/-- Why a request fails. -/
inductive Failure where
  | load (path : String) (cause : LoadFault)
  | compile (path : String) (cause : Fault)
  | read (path : String)
  | badJson
  | write (path : String)

namespace Failure

def message : Failure → String
  | load path _ => "failed to load module " ++ path
  | compile path _ => "failed to compile " ++ path
  | read path => "failed to read " ++ path
  | badJson => LoadFault.message .badJson
  | write path => "failed to write " ++ path

/-- What lies behind a failure. -/
def cause? : Failure → Option String
  | load _ cause => some cause.message
  | compile _ cause => some cause.message
  | read _ | badJson | write _ => none

end Failure

/-- What a request leads to. -/
inductive Effect where
  | print (text : String)
  | write (path : String) (contents : List UInt8)

namespace Invocation

/-- The only item of a list that has at most one. -/
def atMostOne? {α : Type} : List α → Option (Option α)
  | [] => some none
  | [a] => some (some a)
  | _ => none

/-- The arguments by kind, if none but the module is there twice. -/
structure Given where
  modules : List String
  output : Option String
  entry : Option String
  noAnnotate : Bool

def given? (args : List Argument) : Option Given := do
  let modules := args.filterMap fun
    | .module path => some path
    | _ => none
  let output ← atMostOne? (args.filterMap fun
    | .output path => some path
    | _ => none)
  let entry ← atMostOne? (args.filterMap fun
    | .entry name => some name
    | _ => none)
  let plain ← atMostOne? (args.filter fun a => a = .noAnnotate)
  return ⟨modules, output, entry, plain.isSome⟩

def buildOptions (g : Given) : Options :=
  { entryPoint := g.entry.getD "Main", annotate := !g.noAnnotate }

/-- The request that the arguments of the program make. -/
def ofArgs? : List String → Option Invocation
  | "build" :: rest => do
    let g ← given? (← Argument.ofStrings? rest)
    let [path] := g.modules | none
    return .build path g.output (buildOptions g)
  | "dump" :: rest => do
    let [.module path] ← Argument.ofStrings? rest | none
    return .dump path
  | "pack" :: rest => do
    match ← Argument.ofStrings? rest with
    | [.module path, .output output] => return .pack path output
    | [.output output, .module path] => return .pack path output
    | _ => none
  | first :: _ => if first = "--version" ∨ first.startsWith "-V" then some .version else none
  | [] => none

/-- The file that must be read first. -/
def input? : Invocation → Option String
  | version => none
  | build path _ _ | dump path | pack path _ => some path

/-- What to do, given the contents of that file if it can be read. -/
def respond (contents : Option (List UInt8)) : Invocation → Except Failure Effect
  | version => .ok (.print "ilmix 0.1.0\n")
  | build path output options =>
    match Module.ofFile path contents with
    | .error cause => .error (.load path cause)
    | .ok m =>
      match m.compile options with
      | .error cause => .error (.compile path cause)
      | .ok lines =>
        .ok (.write (output.getD (FileName.withExtension path "mms"))
          (Line.render lines).toUTF8.data.toList)
  | dump path =>
    match Module.ofFile path contents with
    | .error cause => .error (.load path cause)
    | .ok m => .ok (.print m.listing)
  | pack path output =>
    match Module.ofTextFile contents with
    | .error .unreadable => .error (.read path)
    | .error _ => .error .badJson
    | .ok m => .ok (.write output m.toBytes)

/-- What a request prints, and the directory after it. -/
def runIn (d : Directory) (request : Invocation) : Except Failure (String × Directory) :=
  match request.respond (request.input?.bind d.read?) with
  | .error failure => .error failure
  | .ok (.print text) => .ok (text, d)
  | .ok (.write path contents) =>
    match d.write? path contents with
    | some after => .ok ("", after)
    | none => .error (.write path)

end Invocation

end CilMmix
