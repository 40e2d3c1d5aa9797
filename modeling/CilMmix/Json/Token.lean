import CilMmix.Json.Basic

/-! The tokens of a JSON text. -/

namespace CilMmix.Json

inductive Token where
  | beginArray
  | endArray
  | beginObject
  | endObject
  | colon
  | comma
  | null
  | bool (b : Bool)
  | num (n : Numeral)
  /-- A string; it has no text if half of a surrogate pair stands alone in it. -/
  | str (s : Option String)

namespace Token

def hexValue? (c : Char) : Option Nat :=
  if '0' ≤ c ∧ c ≤ '9' then some (c.toNat - '0'.toNat)
  else if 'a' ≤ c ∧ c ≤ 'f' then some (c.toNat - 'a'.toNat + 10)
  else if 'A' ≤ c ∧ c ≤ 'F' then some (c.toNat - 'A'.toNat + 10)
  else none

/-- The number that four hexadecimal digits stand for. -/
def unit? (a b c d : Char) : Option Nat := do
  let a ← hexValue? a
  let b ← hexValue? b
  let c ← hexValue? c
  let d ← hexValue? d
  return a * 4096 + b * 256 + c * 16 + d

def isHighSurrogate (n : Nat) : Bool := 0xD800 ≤ n && n < 0xDC00

def isLowSurrogate (n : Nat) : Bool := 0xDC00 ≤ n && n < 0xE000

/-- The character of a backslash and one more letter. -/
def shortEscape? (c : Char) : Option Char :=
  if c == '\"' ∨ c == '\\' ∨ c == '/' then some c
  else if c == 'b' then some '\x08'
  else if c == 'f' then some '\x0c'
  else if c == 'n' then some '\n'
  else if c == 'r' then some '\r'
  else if c == 't' then some '\t'
  else none

/-- The code points and code units up to the closing quote, and what follows it. Characters below the
space must be escaped. -/
def scanString : List Char → Option (List Nat × List Char)
  | '\"' :: rest => some ([], rest)
  | '\\' :: 'u' :: a :: b :: c :: d :: rest =>
    match unit? a b c d with
    | none => none
    | some n => (scanString rest).map fun (ns, rest) => (n :: ns, rest)
  | '\\' :: c :: rest =>
    match shortEscape? c with
    | none => none
    | some c => (scanString rest).map fun (ns, rest) => (c.toNat :: ns, rest)
  | c :: rest =>
    if c == '\\' || c.toNat < 0x20 then none
    else (scanString rest).map fun (ns, rest) => (c.toNat :: ns, rest)
  | [] => none

/-- The characters that code points and code units stand for. A surrogate counts only as half of a
pair. -/
def characters? : List Nat → Option (List Char)
  | [] => some []
  | n :: ns =>
    if isHighSurrogate n then
      match ns with
      | [] => none
      | m :: ns =>
        if isLowSurrogate m then
          (characters? ns).map fun cs =>
            Char.ofNat (0x10000 + (n - 0xD800) * 0x400 + (m - 0xDC00)) :: cs
        else none
    else if isLowSurrogate n then none
    else (characters? ns).map fun cs => Char.ofNat n :: cs

/-- One or more digits, and what follows them. -/
def scanDigits? (cs : List Char) : Option (List Char × List Char) :=
  match cs.takeWhile Char.isDigit with
  | [] => none
  | ds => some (ds, cs.dropWhile Char.isDigit)

def digitsValue (ds : List Char) : Nat := Nat.ofDigitChars 10 ds 0

/-- A run of digits without zeros in front. -/
def scanWhole? (cs : List Char) : Option (Nat × List Char) :=
  match scanDigits? cs with
  | some ('0' :: _ :: _, _) => none
  | some (ds, rest) => some (digitsValue ds, rest)
  | none => none

/-- Nothing, or a point and digits. -/
def scanFraction? : List Char → Option (List Char × List Char)
  | '.' :: rest => scanDigits? rest
  | rest => some ([], rest)

def scanExponentDigits? (negative : Bool) (cs : List Char) : Option (Option Int × List Char) :=
  (scanDigits? cs).map fun (ds, rest) =>
    (some (if negative then -(digitsValue ds : Int) else digitsValue ds), rest)

def scanSignedExponent? : List Char → Option (Option Int × List Char)
  | '+' :: rest => scanExponentDigits? false rest
  | '-' :: rest => scanExponentDigits? true rest
  | rest => scanExponentDigits? false rest

/-- Nothing, or a mark, perhaps a sign, and digits. -/
def scanExponent? : List Char → Option (Option Int × List Char)
  | 'e' :: rest | 'E' :: rest => scanSignedExponent? rest
  | rest => some (none, rest)

def scanUnsigned? (negative : Bool) (cs : List Char) : Option (Numeral × List Char) := do
  let (whole, rest) ← scanWhole? cs
  let (fraction, rest) ← scanFraction? rest
  let (exponent, rest) ← scanExponent? rest
  return (⟨negative, whole, fraction, exponent⟩, rest)

def scanNumeral? : List Char → Option (Numeral × List Char)
  | '-' :: rest => scanUnsigned? true rest
  | cs => scanUnsigned? false cs

/-- The token at the front of a text that does not begin with white space. -/
def scan? : List Char → Option (Token × List Char)
  | '[' :: rest => some (.beginArray, rest)
  | ']' :: rest => some (.endArray, rest)
  | '\x7b' :: rest => some (.beginObject, rest)
  | '\x7d' :: rest => some (.endObject, rest)
  | ':' :: rest => some (.colon, rest)
  | ',' :: rest => some (.comma, rest)
  | '\"' :: rest => (scanString rest).map fun (ns, rest) => (.str ((characters? ns).map String.ofList), rest)
  | 'n' :: 'u' :: 'l' :: 'l' :: rest => some (.null, rest)
  | 't' :: 'r' :: 'u' :: 'e' :: rest => some (.bool true, rest)
  | 'f' :: 'a' :: 'l' :: 's' :: 'e' :: rest => some (.bool false, rest)
  | cs => (scanNumeral? cs).map fun (n, rest) => (.num n, rest)

def isBlank (c : Char) : Bool := c == ' ' || c == '\n' || c == '\t' || c == '\r'

theorem scanString_length {cs rest : List Char} {ns : List Nat}
    (h : scanString cs = some (ns, rest)) : rest.length < cs.length := by
  fun_induction scanString cs generalizing ns rest <;> simp_all <;> grind

theorem scanDigits?_length {cs ds rest : List Char} (h : scanDigits? cs = some (ds, rest)) :
    rest.length < cs.length := by
  have hsplit := congrArg List.length (List.takeWhile_append_dropWhile (p := Char.isDigit) (l := cs))
  simp only [List.length_append] at hsplit
  simp only [scanDigits?] at h
  split at h
  · simp at h
  · next hne =>
    simp only [Option.some.injEq, Prod.mk.injEq] at h
    have := List.length_pos_iff.2 hne
    grind

theorem scanWhole?_length {cs rest : List Char} {n : Nat} (h : scanWhole? cs = some (n, rest)) :
    rest.length < cs.length := by
  simp only [scanWhole?] at h
  grind [→ scanDigits?_length]

theorem scanFraction?_length {cs ds rest : List Char} (h : scanFraction? cs = some (ds, rest)) :
    rest.length ≤ cs.length := by
  simp only [scanFraction?] at h
  grind [→ scanDigits?_length]

theorem scanExponentDigits?_length {negative : Bool} {cs rest : List Char} {e : Option Int}
    (h : scanExponentDigits? negative cs = some (e, rest)) : rest.length < cs.length := by
  simp only [scanExponentDigits?, Option.map_eq_some_iff, Prod.exists, Prod.mk.injEq] at h
  obtain ⟨ds, r, h, _, rfl⟩ := h
  exact scanDigits?_length h

theorem scanExponent?_length {cs rest : List Char} {e : Option Int}
    (h : scanExponent? cs = some (e, rest)) : rest.length ≤ cs.length := by
  simp only [scanExponent?, scanSignedExponent?] at h
  grind [→ scanExponentDigits?_length]

theorem scanUnsigned?_length {negative : Bool} {cs rest : List Char} {n : Numeral}
    (h : scanUnsigned? negative cs = some (n, rest)) : rest.length < cs.length := by
  simp only [scanUnsigned?, Option.bind_eq_bind, Option.bind_eq_some_iff, Prod.exists,
    Option.pure_def, Option.some.injEq, Prod.mk.injEq] at h
  obtain ⟨w, r, hw, f, t, hf, e, u, he, _, rfl⟩ := h
  have := scanWhole?_length hw
  have := scanFraction?_length hf
  have := scanExponent?_length he
  omega

theorem scanNumeral?_length {cs rest : List Char} {n : Numeral}
    (h : scanNumeral? cs = some (n, rest)) : rest.length < cs.length := by
  simp only [scanNumeral?] at h
  grind [→ scanUnsigned?_length]

theorem scan?_length {cs rest : List Char} {t : Token} (h : scan? cs = some (t, rest)) :
    rest.length < cs.length := by
  unfold scan? at h
  split at h <;>
    simp only [Option.map_eq_some_iff, Prod.exists, Option.some.injEq, Prod.mk.injEq] at h
  case h_7 =>
    obtain ⟨s, r, h, _, rfl⟩ := h
    have := scanString_length h
    simp only [List.length_cons]
    omega
  case h_11 =>
    obtain ⟨n, r, h, _, rfl⟩ := h
    exact scanNumeral?_length h
  all_goals
    obtain ⟨_, rfl⟩ := h
    simp only [List.length_cons]
    omega

/-- The tokens of a text with any white space between them. -/
def tokens? (cs : List Char) : Option (List Token) :=
  match cs with
  | [] => some []
  | c :: rest =>
    if isBlank c then tokens? rest
    else
      match _h : scan? (c :: rest) with
      | none => none
      | some (t, tail) => (tokens? tail).map (t :: ·)
termination_by cs.length
decreasing_by
  · simp
  · exact scan?_length _h

end Token

end CilMmix.Json
