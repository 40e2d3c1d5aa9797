import CilMmix.Json.Basic
import CilMmix.Text.Quoted

/-! Writing a JSON document over several lines, two blanks for each level of nesting. -/

namespace CilMmix

namespace Numeral

def exponentText : Option Int → List Char
  | none => []
  | some (.ofNat n) => 'e' :: '+' :: Nat.toDigits 10 n
  | some (.negSucc n) => 'e' :: '-' :: Nat.toDigits 10 (n + 1)

def text (n : Numeral) : List Char :=
  (if n.negative then ['-'] else []) ++ Nat.toDigits 10 n.whole ++
    (if n.fraction.isEmpty then [] else '.' :: n.fraction) ++ exponentText n.exponent

end Numeral

namespace Json

/-- Quotes, backslashes and characters below the space are escaped, all others stand for
themselves. -/
def escape (c : Char) : List Char :=
  if c == '\"' then ['\\', '\"']
  else if c == '\\' then ['\\', '\\']
  else if c == '\x08' then ['\\', 'b']
  else if c == '\t' then ['\\', 't']
  else if c == '\n' then ['\\', 'n']
  else if c == '\x0c' then ['\\', 'f']
  else if c == '\r' then ['\\', 'r']
  else if c.toNat < 0x20 then '\\' :: 'u' :: Text.hexDigits 4 c.toNat
  else [c]

def quote (s : String) (rest : List Char) : List Char :=
  '\"' :: (s.toList.flatMap escape ++ '\"' :: rest)

/-- A new line with the blanks of a nesting level. -/
def newline (level : Nat) (rest : List Char) : List Char :=
  '\n' :: (List.replicate (2 * level) ' ' ++ rest)

mutual

/-- The text of a value that stands at a nesting level, in front of what follows it. -/
def pretty (level : Nat) : Json → List Char → List Char
  | .null, rest | .garbled, rest => 'n' :: 'u' :: 'l' :: 'l' :: rest
  | .bool true, rest => 't' :: 'r' :: 'u' :: 'e' :: rest
  | .bool false, rest => 'f' :: 'a' :: 'l' :: 's' :: 'e' :: rest
  | .num n, rest => n.text ++ rest
  | .str s, rest => quote s rest
  | .arr [], rest => '[' :: ']' :: rest
  | .arr (item :: items), rest =>
    '[' :: newline (level + 1) (pretty (level + 1) item
      (prettyItems (level + 1) items (newline level (']' :: rest))))
  | .obj [], rest => '\x7b' :: '\x7d' :: rest
  | .obj ((name, value) :: members), rest =>
    '\x7b' :: newline (level + 1) (quote name (':' :: ' ' :: pretty (level + 1) value
      (prettyMembers (level + 1) members (newline level ('\x7d' :: rest)))))

/-- The items after the first one. -/
def prettyItems (level : Nat) : List Json → List Char → List Char
  | [], rest => rest
  | item :: items, rest =>
    ',' :: newline level (pretty level item (prettyItems level items rest))

/-- The members after the first one. -/
def prettyMembers (level : Nat) : List (String × Json) → List Char → List Char
  | [], rest => rest
  | (name, value) :: members, rest =>
    ',' :: newline level (quote name (':' :: ' ' :: pretty level value
      (prettyMembers level members rest)))

end

def text (j : Json) : String := String.ofList (j.pretty 0 [])

end Json

end CilMmix
