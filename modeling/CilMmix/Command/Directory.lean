/-! A directory with its files, which requests read and write. -/

namespace CilMmix

structure Directory where
  /-- Files by the names on the way to them. -/
  files : List (List String × List UInt8)

namespace Directory

/-- Whether there is a directory inside this one, or the directory is this one itself. -/
def isDirectory (d : Directory) (names : List String) : Bool :=
  names.isEmpty || d.files.any fun f => names.length < f.1.length && names.isPrefixOf f.1

/-- Follows names from one of the directories inside. The way may not lead out of the directory, and
must end at a file name. -/
def follow (d : Directory) : List String → List String → Option (List String)
  | _, [] => none
  | inside, [name] =>
    if name = "" ∨ name = "." ∨ name = ".." then none else some (inside ++ [name])
  | inside, name :: names =>
    if name = "" ∨ name = "." then d.follow inside names
    else if name = ".." then
      if inside.isEmpty then none else d.follow inside.dropLast names
    else if d.isDirectory (inside ++ [name]) then d.follow (inside ++ [name]) names
    else none

/-- The place of a file that a relative path names. -/
def place? (d : Directory) (path : String) : Option (List String) :=
  match path.splitOn "/" with
  | "" :: _ => none
  | names => d.follow [] names

def read? (d : Directory) (path : String) : Option (List UInt8) := do
  d.files.lookup (← d.place? path)

/-- Writes a file where there is no directory. -/
def write? (d : Directory) (path : String) (contents : List UInt8) : Option Directory := do
  let place ← d.place? path
  if d.isDirectory place then none
  else return ⟨d.files.filter (fun f => f.1 != place) ++ [(place, contents)]⟩

/-- The files that another directory does not have, or has with other contents. -/
def changes (before after : Directory) : List (String × List UInt8) :=
  (after.files.filter fun f => before.files.lookup f.1 != some f.2).map fun f =>
    (String.intercalate "/" f.1, f.2)

end Directory

end CilMmix
