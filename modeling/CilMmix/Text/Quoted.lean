import CilMmix.Text.Shown

/-! Numbers and string literals in listings. Code offsets, addresses and data bytes are in hexadecimal.
Literals are in double quotes, with the usual short escapes, and by code point where a character would not
show. -/

namespace CilMmix.Text

/-- The digits of `n`, lower case, with zeros in front up to `places`. -/
def hexDigits (places n : Nat) : List Char :=
  let digits := Nat.toDigits 16 n
  List.replicate (places - digits.length) '0' ++ digits

def hex (places n : Nat) : String :=
  String.ofList (hexDigits places n)

def upperHex (places n : Nat) : String :=
  String.ofList ((hexDigits places n).map Char.toUpper)

/-- How messages and listings name the instruction at a code offset. -/
def codeOffset (offset : UInt32) : String :=
  "IL_" ++ hex 4 offset.toNat

/-- The parts with a comma and a blank between them. -/
def commaList (parts : List String) : String :=
  String.intercalate ", " parts

def escape (c : Char) : String :=
  if c == '\"' then "\\\""
  else if c == '\\' then "\\\\"
  else if c == '\n' then "\\n"
  else if c == '\r' then "\\r"
  else if c == '\t' then "\\t"
  else if c.toNat == 0 then "\\0"
  else if isShown c then String.singleton c
  else "\\u\x7b" ++ hex 1 c.toNat ++ "\x7d"

def quoted (s : String) : String :=
  "\"" ++ String.join (s.toList.map escape) ++ "\""

end CilMmix.Text
