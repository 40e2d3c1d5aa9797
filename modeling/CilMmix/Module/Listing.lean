import CilMmix.Code.Mnemonic
import CilMmix.Module.Basic

/-! A readable listing of a module: every type, field and method body. -/

namespace CilMmix

/-- The line above and below the heading of a method. -/
def Listing.rule : String := String.ofList (List.replicate 40 '═')

def TypeKind.text : TypeKind → String
  | classType => "class"
  | structType => "struct"
  | interfaceType => "interface"

def FieldDef.listing (f : FieldDef) : String :=
  "  field " ++ (if f.isStatic then "static " else "") ++ f.ty.text ++ " " ++ f.name

/-- Offsets that a branch or a switch of the body leads to. -/
def Listing.targets (body : List Instruction) : List UInt32 :=
  body.flatMap fun i =>
    match i.op with
    | .switch ts => ts
    | op => op.branchTarget?.toList

/-- The instructions, with a mark at those that a branch leads to. -/
def Listing.code (body : List Instruction) : List String :=
  let targets := Listing.targets body
  body.map fun i => (if targets.contains i.offset then "► " else "  ") ++ i.text

namespace MethodDef

def flags (m : MethodDef) : List String :=
  (if m.isStatic then ["static"] else []) ++ (if m.isConstructor then ["ctor"] else [])

def extent (m : MethodDef) : String :=
  match m.body with
  | none => " no body"
  | some [] => " runtime stub"
  | some body => " " ++ toString body.length ++ " instructions"

def listing (m : MethodDef) : List String :=
  [Listing.rule,
   " " ++ m.ret.text ++ " " ++ m.name ++ "(" ++ Text.commaList (m.params.map TypeRef.text) ++ ")"] ++
  (if m.flags.isEmpty then [] else [" [" ++ Text.commaList m.flags ++ "]"]) ++
  [m.extent, Listing.rule] ++
  m.locals.mapIdx (fun i ty => "  .local " ++ toString i ++ " " ++ ty.text) ++
  Listing.code m.code ++ [""]

end MethodDef

def TypeDef.listing (t : TypeDef) : List String :=
  [t.kind.text ++ " " ++ t.name] ++ t.fields.map FieldDef.listing ++ [""] ++
    t.methods.flatMap MethodDef.listing

def Module.listing (m : Module) : String :=
  String.join ((["=== MODULE " ++ m.name ++ " ===", ""] ++ m.types.flatMap TypeDef.listing).map (· ++ "\n"))

end CilMmix
