import CilMmix.Command.Invocation

/-! The command line. -/

namespace CilMmix

/-- The contents of a file that can be read. -/
def readContents? (path : String) : IO (Option (List UInt8)) := do
  try
    return some (← IO.FS.readBinFile path).data.toList
  catch _ => return none

def perform : Effect → IO (Option Failure)
  | .print text => do
    IO.print text
    return none
  | .write path contents => do
    try
      IO.FS.writeBinFile path contents.toByteArray
      return none
    catch _ => return some (.write path)

def report (failure : Failure) : IO Unit := do
  IO.eprintln ("Error: " ++ failure.message)
  if let some cause := failure.cause? then IO.eprintln ("\nCaused by:\n    " ++ cause)

end CilMmix

open CilMmix in
def main (args : List String) : IO UInt32 := do
  match Invocation.ofArgs? args with
  | none =>
    IO.eprintln "Usage: ilmix build MODULE [-o FILE] [--entry NAME] [--no-annotate]"
    IO.eprintln "       ilmix dump MODULE"
    IO.eprintln "       ilmix pack MODULE -o FILE"
    return 2
  | some request =>
    let contents ← match request.input? with
      | some path => readContents? path
      | none => pure none
    let failure ← match request.respond contents with
      | .error failure => pure (some failure)
      | .ok effect => perform effect
    match failure with
    | none => return 0
    | some failure =>
      report failure
      return 1
