/-! The arguments of a subcommand: a module, and options with one or two dashes in front. The value of
an option is attached to it or comes next. After two dashes alone all that follows are modules. -/

namespace CilMmix

inductive Argument where
  | module (path : String)
  | output (path : String)
  | entry (name : String)
  | noAnnotate
  deriving DecidableEq

namespace Argument

/-- Paths are not empty. -/
def path? (s : String) : Option String := if s.isEmpty then none else some s

/-- Whether a text is a value rather than an option. -/
def isValue (s : String) : Bool := s == "-" || !s.startsWith "-"

def output? (s : String) : Option Argument := (path? s).map output

/-- Options that take a value, by their names. -/
def valued? (name : String) : Option (String → Option Argument) :=
  match name with
  | "-o" | "--output" => some output?
  | "--entry" => some fun value => some (entry value)
  | _ => none

/-- An option together with its value. -/
def attached? (s : String) : Option Argument :=
  match s.toList with
  | '-' :: '-' :: cs =>
    let name := cs.takeWhile fun c => c != '='
    match cs.drop name.length with
    | '=' :: value => do (← valued? (String.ofList ('-' :: '-' :: name))) (String.ofList value)
    | _ => none
  | ['-', 'o'] => none
  | '-' :: 'o' :: '=' :: value => output? (String.ofList value)
  | '-' :: 'o' :: value => output? (String.ofList value)
  | _ => none

/-- The modules after two dashes. -/
def modules? (args : List String) : Option (List Argument) :=
  args.mapM fun s => (path? s).map module

/-- All arguments, if each is well formed. -/
def ofStrings? : List String → Option (List Argument)
  | [] => some []
  | "--" :: rest => modules? rest
  | s :: rest =>
    if isValue s then do return .module (← path? s) :: (← ofStrings? rest)
    else if s = "--no-annotate" then do return .noAnnotate :: (← ofStrings? rest)
    else
      match valued? s with
      | none => do return (← attached? s) :: (← ofStrings? rest)
      | some make =>
        match rest with
        | [] => none
        | value :: rest =>
          if isValue value then do return (← make value) :: (← ofStrings? rest) else none

end Argument

end CilMmix
