import CilMmix.Assembly.Register

/-! Values in the register window of a method. -/

namespace CilMmix

/-- A value with the registers it occupies. -/
structure Element where
  /-- The first register. -/
  offset : Nat
  size : Size
  ty : TypeRef
  /-- Where the value comes from. -/
  origin : Option String
  deriving DecidableEq

namespace Element

/-- One past the last register. -/
def stop (e : Element) : Nat := e.offset + e.size.words

/-- The registers of several values together. -/
def totalWords : List Element → Nat
  | [] => 0
  | e :: elems => e.size.words + totalWords elems

def text (e : Element) : String :=
  "@" ++ toString e.offset ++ ":" ++ toString e.size.words ++
    (match e.origin with
      | some origin => " " ++ origin
      | none => "") ++
    " (" ++ e.ty.text ++ ")"

end Element

end CilMmix
