import CilMmix.Module.Binary
import CilMmix.Module.Json

/-! Module files. A file whose extension is `json` holds text, any other the binary form. -/

namespace CilMmix

namespace FileName

/-- What follows the last slash of a path. -/
def ofPath (path : List Char) : List Char :=
  (path.reverse.takeWhile fun c => c != '/').reverse

/-- What follows the last dot of a name. A name whose only dot comes first has no extension, nor has
the name of the directory above. -/
def extension? (path : String) : Option String :=
  let name := ofPath path.toList
  let ending := (name.reverse.takeWhile fun c => c != '.').reverse
  if name.length ≤ ending.length + 1 ∨ name = ['.', '.'] then none else some (String.ofList ending)

/-- The path with another extension. Where only the two dots of the directory above would be left
before the extension, they stay alone. -/
def withExtension (path extension : String) : String :=
  match extension? path with
  | none => path ++ "." ++ extension
  | some old =>
    let stem := path.toList.take (path.length - old.length)
    if ofPath stem = ['.', '.'] then String.ofList stem
    else String.ofList stem ++ extension

end FileName

/-- Why a file gives no module. -/
inductive LoadFault where
  | unreadable
  | badJson
  | badBinary (reason : Bytes.Malformed)

def LoadFault.message : LoadFault → String
  | unreadable => "failed to read module"
  | badJson => "malformed JSON module"
  | badBinary reason => "malformed binary module: " ++ reason.message

/-- The text in UTF-8. -/
def textOfBytes? (bs : List UInt8) : Option String := String.fromUTF8? bs.toByteArray

namespace Module

/-- Text that is no module is a fault in the module, bytes that are no text one in the file. -/
def ofTextFile (contents : Option (List UInt8)) : Except LoadFault Module :=
  match contents.bind textOfBytes? with
  | none => .error .unreadable
  | some text =>
    match ofText? text with
    | some m => .ok m
    | none => .error .badJson

def ofBinaryFile : Option (List UInt8) → Except LoadFault Module
  | none => .error .unreadable
  | some bs =>
    match ofBytes bs with
    | .ok m => .ok m
    | .error reason => .error (.badBinary reason)

/-- The module in a file, of which the contents are absent if it cannot be read. -/
def ofFile (path : String) (contents : Option (List UInt8)) : Except LoadFault Module :=
  if FileName.extension? path = some "json" then ofTextFile contents else ofBinaryFile contents

end Module

end CilMmix
