import CilMmix.Json.Printer
import CilMmix.Json.Token

/-! The tokens of a printed document. Numbers are the only tokens without an end of their own, so what
follows one must not go on with it. -/

namespace CilMmix

namespace Json

/-- Documents that the reader can tell from their text: numbers are whole, and nothing is garbled. -/
inductive Plain : Json → Prop
  | null : Plain .null
  | bool (b : Bool) : Plain (.bool b)
  | int (n : Int) : Plain (.num (.ofInt n))
  | str (s : String) : Plain (.str s)
  | arr {items : List Json} : (∀ j ∈ items, Plain j) → Plain (.arr items)
  | obj {members : List (String × Json)} : (∀ m ∈ members, Plain m.2) → Plain (.obj members)

mutual

/-- The tokens that a document is printed with. -/
def tokens : Json → List Token
  | .null | .garbled => [.null]
  | .bool b => [.bool b]
  | .num n => [.num n]
  | .str s => [.str (some s)]
  | .arr [] => [.beginArray, .endArray]
  | .arr (item :: items) => .beginArray :: (tokens item ++ tokensOfItems items ++ [.endArray])
  | .obj [] => [.beginObject, .endObject]
  | .obj ((name, value) :: members) =>
    .beginObject :: .str (some name) :: .colon ::
      (tokens value ++ tokensOfMembers members ++ [.endObject])

/-- The tokens of the items after the first one. -/
def tokensOfItems : List Json → List Token
  | [] => []
  | item :: items => .comma :: (tokens item ++ tokensOfItems items)

/-- The tokens of the members after the first one. -/
def tokensOfMembers : List (String × Json) → List Token
  | [] => []
  | (name, value) :: members =>
    .comma :: .str (some name) :: .colon :: (tokens value ++ tokensOfMembers members)

end

namespace Token

theorem tokens?_nil : tokens? [] = some [] := by
  rw [tokens?]

theorem tokens?_blank {c : Char} (h : isBlank c = true) (rest : List Char) :
    tokens? (c :: rest) = tokens? rest := by
  rw [tokens?, if_pos h]

theorem tokens?_scan {cs tail : List Char} {t : Token} {c : Char} {rest : List Char}
    (hcs : cs = c :: rest) (hblank : isBlank c = false) (h : scan? cs = some (t, tail)) :
    tokens? cs = (tokens? tail).map (t :: ·) := by
  subst hcs
  rw [tokens?, if_neg (by simp [hblank])]
  split
  · rename_i hnone
    rw [h] at hnone
    cases hnone
  · rename_i t' tail' hsome
    rw [h] at hsome
    cases hsome
    rfl

theorem tokens?_newline (level : Nat) (rest : List Char) :
    tokens? (newline level rest) = tokens? rest := by
  have hblanks : ∀ n, tokens? (List.replicate n ' ' ++ rest) = tokens? rest := by
    intro n
    induction n with
    | zero => rfl
    | succ n ih => rw [List.replicate_succ, List.cons_append, tokens?_blank rfl, ih]
  rw [newline, tokens?_blank rfl, hblanks]

theorem hexValue?_digitChar : ∀ d < 16, hexValue? d.digitChar = some d := by decide

theorem hexDigits_four {n : Nat} (h : n < 256) :
    Text.hexDigits 4 n = ['0', '0', (n / 16).digitChar, (n % 16).digitChar] := by
  by_cases hn : n < 16
  · have hhigh : n / 16 = 0 := by omega
    have hlow : n % 16 = n := by omega
    simp [Text.hexDigits, Nat.toDigits_of_lt_base hn, hhigh, hlow, List.replicate]
  · have hhigh : n / 16 < 16 := by omega
    have hdigits : Nat.toDigits 16 n = [(n / 16).digitChar, (n % 16).digitChar] := by
      rw [Nat.toDigits_of_base_le (by decide) (by omega), Nat.toDigits_of_lt_base hhigh]
      rfl
    simp [Text.hexDigits, hdigits, List.replicate]

theorem unit?_of_lt {n : Nat} (h : n < 256) :
    unit? '0' '0' (n / 16).digitChar (n % 16).digitChar = some n := by
  have hzero : hexValue? '0' = some 0 := rfl
  have hhigh := hexValue?_digitChar (n / 16) (by omega)
  have hlow := hexValue?_digitChar (n % 16) (by omega)
  have hn : n / 16 * 16 + n % 16 = n := by omega
  simp [unit?, hzero, hhigh, hlow, hn]

/-- A character comes back from the way it is written, whatever stands behind it. -/
theorem scanString_escape (c : Char) (rest : List Char) : scanString (escape c ++ rest) =
    (scanString rest).map fun p => (c.toNat :: p.1, p.2) := by
  by_cases hquote : c = '\"'
  · subst hquote
    simp [escape, scanString, shortEscape?]
  by_cases hslash : c = '\\'
  · subst hslash
    simp [escape, scanString, shortEscape?]
  by_cases hback : c = '\x08'
  · subst hback
    simp [escape, scanString, shortEscape?]
  by_cases htab : c = '\t'
  · subst htab
    simp [escape, scanString, shortEscape?]
  by_cases hline : c = '\n'
  · subst hline
    simp [escape, scanString, shortEscape?]
  by_cases hfeed : c = '\x0c'
  · subst hfeed
    simp [escape, scanString, shortEscape?]
  by_cases hreturn : c = '\r'
  · subst hreturn
    simp [escape, scanString, shortEscape?]
  by_cases hcontrol : c.toNat < 0x20
  · have hwritten : escape c = '\\' :: 'u' :: Text.hexDigits 4 c.toNat := by
      simp [escape, hquote, hslash, hback, htab, hline, hfeed, hreturn, hcontrol]
    rw [hwritten, hexDigits_four (by omega)]
    simp [scanString, unit?_of_lt (show c.toNat < 256 by omega)]
  · have hwritten : escape c = [c] := by
      simp [escape, hquote, hslash, hback, htab, hline, hfeed, hreturn, hcontrol]
    rw [hwritten, List.singleton_append, scanString] <;> simp [hquote, hslash, hcontrol]

theorem scanString_quoted (cs : List Char) (rest : List Char) :
    scanString (cs.flatMap escape ++ '\"' :: rest) = some (cs.map Char.toNat, rest) := by
  induction cs with
  | nil => simp [scanString]
  | cons c cs ih =>
    rw [List.flatMap_cons, List.append_assoc, scanString_escape, ih]
    rfl

theorem characters?_toNat (cs : List Char) : characters? (cs.map Char.toNat) = some cs := by
  induction cs with
  | nil => rfl
  | cons c cs ih =>
    have hvalid : c.toNat < 0xD800 ∨ 0xDFFF < c.toNat ∧ c.toNat < 0x110000 := c.valid
    have hhigh : isHighSurrogate c.toNat = false := by
      simp only [isHighSurrogate, Bool.and_eq_false_iff, decide_eq_false_iff_not]
      omega
    have hlow : isLowSurrogate c.toNat = false := by
      simp only [isLowSurrogate, Bool.and_eq_false_iff, decide_eq_false_iff_not]
      omega
    rw [List.map_cons, characters?.eq_def]
    simp [hhigh, hlow, ih]

theorem scan?_quote (s : String) (rest : List Char) :
    scan? (quote s rest) = some (.str (some s), rest) := by
  rw [quote, scan?, scanString_quoted]
  simp [characters?_toNat]

/-- The text does not go on with a number that stands before it. -/
def Breaks : List Char → Prop
  | [] => True
  | c :: _ => c.isDigit = false ∧ c ≠ '.' ∧ c ≠ 'e' ∧ c ≠ 'E'

theorem scanDigits?_toDigits (n : Nat) {rest : List Char} (h : Breaks rest) :
    scanDigits? (Nat.toDigits 10 n ++ rest) = some (Nat.toDigits 10 n, rest) := by
  have hdigits : ∀ c ∈ Nat.toDigits 10 n, c.isDigit = true := fun c hc =>
    Nat.isDigit_of_mem_toDigits (by decide) (by decide) hc
  have hrest : rest.takeWhile Char.isDigit = [] ∧ rest.dropWhile Char.isDigit = rest := by
    cases rest with
    | nil => exact ⟨rfl, rfl⟩
    | cons c rest => simp [h.1]
  obtain ⟨d, ds, hd⟩ := List.exists_cons_of_ne_nil (Nat.toDigits_ne_nil (n := n) (b := 10))
  rw [scanDigits?, List.takeWhile_append_of_pos hdigits, List.dropWhile_append_of_pos hdigits, hrest.1,
    hrest.2, List.append_nil, hd]

theorem head?_toDigits {n : Nat} (h : 0 < n) : (Nat.toDigits 10 n).head? ≠ some '0' := by
  induction n using Nat.strongRecOn with
  | ind n ih =>
    by_cases hn : n < 10
    · have hdigit : ∀ d < 10, 0 < d → Nat.digitChar d ≠ '0' := by decide
      rw [Nat.toDigits_of_lt_base hn]
      simpa using hdigit n hn h
    · have hhead := ih (n / 10) (by omega) (by omega)
      obtain ⟨d, ds, hd⟩ := List.exists_cons_of_ne_nil (Nat.toDigits_ne_nil (n := n / 10) (b := 10))
      rw [hd] at hhead
      rw [Nat.toDigits_of_base_le (by decide) (by omega), hd]
      exact hhead

theorem scanWhole?_toDigits (n : Nat) {rest : List Char} (h : Breaks rest) :
    scanWhole? (Nat.toDigits 10 n ++ rest) = some (n, rest) := by
  have hvalue : digitsValue (Nat.toDigits 10 n) = n :=
    Nat.ofDigitChars_toDigits (by decide) (by decide)
  rw [scanWhole?, scanDigits?_toDigits n h]
  split
  · rename_i c cs rest' heq
    -- A zero in front of more digits is refused, but none is written.
    have hzero : Nat.toDigits 10 n = '0' :: c :: cs := (Prod.mk.inj (Option.some.inj heq)).1
    by_cases hn : n = 0
    · rw [hn, Nat.toDigits_zero] at hzero
      cases hzero
    · exact absurd (by rw [hzero]; rfl) (head?_toDigits (Nat.pos_of_ne_zero hn))
  · rename_i ds rest' _ heq
    obtain ⟨rfl, rfl⟩ := Prod.mk.inj (Option.some.inj heq)
    rw [hvalue]
  · rename_i heq
    cases heq

theorem scanUnsigned?_toDigits (negative : Bool) (n : Nat) {rest : List Char} (h : Breaks rest) :
    scanUnsigned? negative (Nat.toDigits 10 n ++ rest) = some (⟨negative, n, [], none⟩, rest) := by
  have hfraction : scanFraction? rest = some ([], rest) := by
    cases rest with
    | nil => rfl
    | cons c rest => rw [scanFraction?]; simpa using h.2.1
  have hexponent : scanExponent? rest = some (none, rest) := by
    cases rest with
    | nil => rfl
    | cons c rest => rw [scanExponent?] <;> simp [h.2.2]
  simp [scanUnsigned?, scanWhole?_toDigits n h, hfraction, hexponent]

/-- A digit or a minus sign begins no other token than a number. -/
theorem scan?_numeral {c : Char} (hc : c = '-' ∨ c.isDigit = true) (rest : List Char) :
    scan? (c :: rest) = (scanNumeral? (c :: rest)).map fun p => (.num p.1, p.2) := by
  have hne : c ≠ '[' ∧ c ≠ ']' ∧ c ≠ '\x7b' ∧ c ≠ '\x7d' ∧ c ≠ ':' ∧ c ≠ ',' ∧ c ≠ '\"' ∧ c ≠ 'n' ∧
      c ≠ 't' ∧ c ≠ 'f' := by
    refine ⟨?_, ?_, ?_, ?_, ?_, ?_, ?_, ?_, ?_, ?_⟩ <;> rintro rfl <;> revert hc <;> decide
  rw [scan?] <;> simp [hne]

theorem text_ofInt (n : Int) : (Numeral.ofInt n).text =
    (if n < 0 then ['-'] else []) ++ Nat.toDigits 10 n.natAbs := by
  simp [Numeral.text, Numeral.ofInt, Numeral.exponentText]

theorem exists_digits (n : Nat) : ∃ d ds, Nat.toDigits 10 n = d :: ds ∧ d.isDigit = true := by
  obtain ⟨d, ds, hd⟩ := List.exists_cons_of_ne_nil (Nat.toDigits_ne_nil (n := n) (b := 10))
  refine ⟨d, ds, hd, Nat.isDigit_of_mem_toDigits (b := 10) (n := n) (by decide) (by decide) ?_⟩
  rw [hd]
  exact List.mem_cons_self

theorem text_cons (n : Int) :
    ∃ c cs, (Numeral.ofInt n).text = c :: cs ∧ (c = '-' ∨ c.isDigit = true) := by
  obtain ⟨d, ds, hd, hdigit⟩ := exists_digits n.natAbs
  rw [text_ofInt, hd]
  by_cases hn : n < 0
  · exact ⟨'-', d :: ds, by rw [if_pos hn]; rfl, .inl rfl⟩
  · exact ⟨d, ds, by rw [if_neg hn]; rfl, .inr hdigit⟩

theorem scanNumeral?_text (n : Int) {rest : List Char} (h : Breaks rest) :
    scanNumeral? ((Numeral.ofInt n).text ++ rest) = some (.ofInt n, rest) := by
  rw [text_ofInt]
  by_cases hn : n < 0
  · have hscan := scanUnsigned?_toDigits true n.natAbs h
    rw [if_pos hn, List.singleton_append, List.cons_append, scanNumeral?, hscan]
    simp [Numeral.ofInt, hn]
  · have hscan := scanUnsigned?_toDigits false n.natAbs h
    obtain ⟨d, ds, hd, hdigit⟩ := exists_digits n.natAbs
    have hminus : d ≠ '-' := by
      rintro rfl
      revert hdigit
      decide
    rw [hd, List.cons_append] at hscan
    rw [if_neg hn, List.nil_append, hd, List.cons_append, scanNumeral?, hscan]
    · simp [Numeral.ofInt, hn]
    · simpa using hminus

theorem tokens?_quote (s : String) (rest : List Char) :
    tokens? (quote s rest) = (tokens? rest).map (.str (some s) :: ·) :=
  tokens?_scan rfl rfl (scan?_quote s rest)

theorem tokens?_text (n : Int) {rest : List Char} (h : Breaks rest) :
    tokens? ((Numeral.ofInt n).text ++ rest) = (tokens? rest).map (.num (.ofInt n) :: ·) := by
  have hscan := scanNumeral?_text n h
  obtain ⟨c, cs, hc, hfirst⟩ := text_cons n
  have hblank : isBlank c = false := by
    rcases hfirst with rfl | hdigit
    · rfl
    · have hne : c ≠ ' ' ∧ c ≠ '\n' ∧ c ≠ '\t' ∧ c ≠ '\r' := by
        refine ⟨?_, ?_, ?_, ?_⟩ <;> rintro rfl <;> revert hdigit <;> decide
      simp [isBlank, hne]
  rw [hc, List.cons_append] at hscan ⊢
  refine tokens?_scan rfl hblank ?_
  rw [scan?_numeral hfirst, hscan]
  rfl

end Token

open Token

theorem breaks_newline (level : Nat) (rest : List Char) : Breaks (newline level rest) := by
  simp [newline, Breaks]

/-- The text of a document gives its tokens, in front of those of what follows. -/
def Printed (j : Json) : Prop :=
  ∀ level rest, Breaks rest → tokens? (pretty level j rest) = (tokens? rest).map (j.tokens ++ ·)

theorem breaks_prettyItems (level : Nat) (items : List Json) {rest : List Char} (h : Breaks rest) :
    Breaks (prettyItems level items rest) := by
  cases items with
  | nil => exact h
  | cons item items => simp [prettyItems, Breaks]

theorem breaks_prettyMembers (level : Nat) (members : List (String × Json)) {rest : List Char}
    (h : Breaks rest) : Breaks (prettyMembers level members rest) := by
  cases members with
  | nil => exact h
  | cons m members =>
    obtain ⟨name, value⟩ := m
    simp [prettyMembers, Breaks]

theorem tokens?_prettyItems {items : List Json} (h : ∀ j ∈ items, Printed j) (level : Nat)
    {rest : List Char} (hrest : Breaks rest) :
    tokens? (prettyItems level items rest) = (tokens? rest).map (tokensOfItems items ++ ·) := by
  induction items with
  | nil => simp [prettyItems, tokensOfItems]
  | cons item items ih =>
    have hmore := ih fun j hj => h j (List.mem_cons_of_mem item hj)
    have hitem := h item List.mem_cons_self level _ (breaks_prettyItems level items hrest)
    rw [prettyItems, tokens?_scan rfl rfl rfl, tokens?_newline, hitem, hmore]
    simp [tokensOfItems, Function.comp_def]

theorem tokens?_prettyMembers {members : List (String × Json)} (h : ∀ m ∈ members, Printed m.2)
    (level : Nat) {rest : List Char} (hrest : Breaks rest) :
    tokens? (prettyMembers level members rest) =
      (tokens? rest).map (tokensOfMembers members ++ ·) := by
  induction members with
  | nil => simp [prettyMembers, tokensOfMembers]
  | cons m members ih =>
    obtain ⟨name, value⟩ := m
    have hmore := ih fun m hm => h m (List.mem_cons_of_mem _ hm)
    have hvalue := h (name, value) List.mem_cons_self level _ (breaks_prettyMembers level members hrest)
    rw [prettyMembers, tokens?_scan rfl rfl rfl, tokens?_newline, tokens?_quote, tokens?_scan rfl rfl rfl,
      tokens?_blank rfl, hvalue, hmore]
    simp [tokensOfMembers, Function.comp_def]

theorem Plain.printed {j : Json} (h : Plain j) : Printed j := by
  induction h with
  | null =>
    intro level rest _
    rw [pretty, tokens?_scan rfl rfl rfl]
    rfl
  | bool b =>
    intro level rest _
    cases b <;> rw [pretty, tokens?_scan rfl rfl rfl] <;> rfl
  | int n =>
    intro level rest hrest
    rw [pretty, tokens?_text n hrest]
    rfl
  | str s =>
    intro level rest _
    rw [pretty, tokens?_quote]
    rfl
  | @arr items _ ih =>
    intro level rest _
    cases items with
    | nil =>
      rw [pretty, tokens?_scan rfl rfl rfl, tokens?_scan rfl rfl rfl]
      simp [tokens, Function.comp_def]
    | cons item items =>
      have hclose : Breaks (newline level (']' :: rest)) := breaks_newline level _
      have hmore := tokens?_prettyItems (fun j hj => ih j (List.mem_cons_of_mem item hj)) (level + 1) hclose
      have hitem := ih item List.mem_cons_self (level + 1) _ (breaks_prettyItems (level + 1) items hclose)
      rw [pretty, tokens?_scan rfl rfl rfl, tokens?_newline, hitem, hmore, tokens?_newline,
        tokens?_scan rfl rfl rfl]
      simp [tokens, Function.comp_def]
  | @obj members _ ih =>
    intro level rest _
    cases members with
    | nil =>
      rw [pretty, tokens?_scan rfl rfl rfl, tokens?_scan rfl rfl rfl]
      simp [tokens, Function.comp_def]
    | cons m members =>
      obtain ⟨name, value⟩ := m
      have hclose : Breaks (newline level ('\x7d' :: rest)) := breaks_newline level _
      have hmore := tokens?_prettyMembers (fun m hm => ih m (List.mem_cons_of_mem _ hm)) (level + 1) hclose
      have hvalue := ih (name, value) List.mem_cons_self (level + 1) _
        (breaks_prettyMembers (level + 1) members hclose)
      rw [pretty, tokens?_scan rfl rfl rfl, tokens?_newline, tokens?_quote, tokens?_scan rfl rfl rfl,
        tokens?_blank rfl, hvalue, hmore, tokens?_newline, tokens?_scan rfl rfl rfl]
      simp [tokens, Function.comp_def]

end Json

end CilMmix
