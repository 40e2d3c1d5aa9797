import Mathlib.Tactic.SplitIfs
import CilMmix.Code.Mnemonic
import CilMmix.Module.Basic

/-! Texts that stay on one line. What a method shows of itself does so exactly if the names that it
uses do: names are shown as they are, and only string literals are escaped. -/

namespace CilMmix

namespace Text

/-- The text has no line end. -/
def Inline (s : String) : Prop := '\n' ∉ s.toList

instance (s : String) : Decidable (Inline s) := inferInstanceAs (Decidable (_ ∉ _))

@[simp] theorem inline_append {a b : String} : Inline (a ++ b) ↔ Inline a ∧ Inline b := by
  simp [Inline, not_or]

@[simp] theorem inline_ofList {cs : List Char} : Inline (String.ofList cs) ↔ '\n' ∉ cs := by
  simp [Inline]

/-- What stands between the line ends of a text. After the last one there is one more line, which is
empty if the text ends with it. -/
def lines (s : String) : List String := (s.toList.splitOn '\n').map String.ofList

theorem lines_append_newline (a b : String) : lines (a ++ "\n" ++ b) = lines a ++ lines b := by
  have hchars : (a ++ "\n" ++ b).toList = a.toList ++ '\n' :: b.toList := by simp
  rw [lines, hchars, List.splitOn_append_cons_self, List.map_append]
  rfl

theorem lines_of_inline {s : String} (h : Inline s) : lines s = [s] := by
  rw [lines, List.splitOn_eq_singleton h]
  simp

theorem lines_eq_singleton {s : String} : lines s = [s] ↔ Inline s := by
  refine ⟨fun h hmem => ?_, lines_of_inline⟩
  obtain ⟨front, back, hsplit⟩ := List.append_of_mem hmem
  have hs : s = String.ofList front ++ "\n" ++ String.ofList back := by
    rw [← String.toList_inj, hsplit]
    simp
  -- There is a line on either side of the line end.
  have hlength := congrArg List.length h
  rw [hs, lines_append_newline, List.length_append, lines, lines, List.length_map, List.length_map] at hlength
  have hfront := List.length_pos_iff.mpr (List.splitOn_ne_nil '\n' (String.ofList front).toList)
  have hback := List.length_pos_iff.mpr (List.splitOn_ne_nil '\n' (String.ofList back).toList)
  simp only [List.length_cons, List.length_nil] at hlength
  omega

theorem inline_join {parts : List String} : Inline (String.join parts) ↔ ∀ s ∈ parts, Inline s := by
  simp only [Inline, String.toList_join, List.mem_flatMap, not_exists, not_and]

theorem inline_intercalate {sep : String} {parts : List String} (hsep : Inline sep) :
    Inline (String.intercalate sep parts) ↔ ∀ s ∈ parts, Inline s := by
  induction parts with
  | nil => simp [Inline]
  | cons s parts ih =>
    cases parts with
    | nil => simp
    | cons t parts => simp only [String.intercalate_cons_cons, inline_append, hsep, and_true, ih,
        List.forall_mem_cons]

theorem inline_commaList {parts : List String} :
    Inline (commaList parts) ↔ ∀ s ∈ parts, Inline s :=
  inline_intercalate (by decide)

theorem newline_not_mem_toDigits {b : Nat} (hb : 1 < b) (n : Nat) : '\n' ∉ Nat.toDigits b n := by
  induction n using Nat.strongRecOn with
  | ind n ih =>
    rw [Nat.toDigits_eq_if hb]
    split
    · simp
    · rename_i hn
      have hlt : n / b < n := Nat.div_lt_self (by omega) hb
      simp [ih _ hlt]

theorem inline_toString_nat (n : Nat) : Inline (toString n) := by
  rw [Nat.toString_eq_ofList_toDigits, inline_ofList]
  exact newline_not_mem_toDigits (by decide) n

theorem inline_toString_int (n : Int) : Inline (toString n) := by
  have hnat : ∀ k : Nat, Inline k.repr := fun k => inline_toString_nat k
  rw [Int.toString_eq_repr, Int.repr_eq_if]
  split
  · exact hnat _
  · exact inline_append.mpr ⟨by decide, hnat _⟩

theorem inline_hex (places n : Nat) : Inline (hex places n) := by
  simp [hex, hexDigits, newline_not_mem_toDigits, List.mem_replicate]

theorem eq_newline_of_toUpper {c : Char} (h : c.toUpper = '\n') : c = '\n' := by
  unfold Char.toUpper at h
  split at h
  · rename_i hrange
    have hval := congrArg Char.val h
    dsimp only at hval
    have hsum := congrArg UInt32.toNat hval
    have hlow := UInt32.le_iff_toNat_le.mp hrange.1
    have hhigh := UInt32.le_iff_toNat_le.mp hrange.2
    simp only [UInt32.toNat_add] at hsum
    change 97 ≤ _ at hlow
    change _ ≤ 122 at hhigh
    change (c.val.toNat + 4294967264) % 2 ^ 32 = 10 at hsum
    omega
  · exact h

theorem inline_upperHex (places n : Nat) : Inline (upperHex places n) := by
  have hhex : '\n' ∉ hexDigits places n := by simpa [hex] using inline_hex places n
  rw [upperHex, inline_ofList, List.mem_map]
  rintro ⟨c, hc, he⟩
  exact hhex (eq_newline_of_toUpper he ▸ hc)

theorem inline_codeOffset (offset : UInt32) : Inline (codeOffset offset) :=
  inline_append.mpr ⟨by decide, inline_hex _ _⟩

theorem inline_escape (c : Char) : Inline (escape c) := by
  unfold escape
  split_ifs with _ _ hnewline
  any_goals decide
  · have hne : '\n' ≠ c := fun he => hnewline (beq_iff_eq.mpr he.symm)
    simpa [Inline] using hne
  · simp only [inline_append]
    exact ⟨⟨by decide, inline_hex _ _⟩, by decide⟩

theorem inline_quoted (s : String) : Inline (quoted s) := by
  have hjoin : Inline (String.join (s.toList.map escape)) := by
    refine inline_join.mpr fun t ht => ?_
    obtain ⟨c, -, rfl⟩ := List.mem_map.mp ht
    exact inline_escape c
  simp only [quoted, inline_append]
  exact ⟨⟨by decide, hjoin⟩, by decide⟩

end Text

open Text

theorem Decimal.newline_not_mem_positional (d : Decimal) :
    '\n' ∉ d.positional.1 ∧ '\n' ∉ d.positional.2 := by
  have hdigits := newline_not_mem_toDigits (b := 10) (by decide) d.digits
  have htake : ∀ k, '\n' ∉ (Nat.toDigits 10 d.digits).take k := fun k h => hdigits (List.mem_of_mem_take h)
  have hdrop : ∀ k, '\n' ∉ (Nat.toDigits 10 d.digits).drop k := fun k h => hdigits (List.mem_of_mem_drop h)
  unfold positional
  dsimp only
  split
  · simp [htake, hdrop, List.mem_replicate]
  · simp [hdigits, List.mem_replicate]

theorem BinaryValue.inline_plain (x : BinaryValue) : Inline x.plain := by
  cases x with
  | nan => decide
  | infinite negative => cases negative <;> decide
  | zero negative => cases negative <;> decide
  | finite negative mantissa scale narrowBelow =>
    obtain ⟨hwhole, hfraction⟩ :=
      (Decimal.shortest .up mantissa scale narrowBelow).newline_not_mem_positional
    simp only [plain, inline_append, inline_ofList]
    refine ⟨⟨?_, hwhole⟩, ?_⟩
    · cases negative <;> decide
    · split
      · decide
      · exact inline_append.mpr ⟨by decide, inline_ofList.mpr hfraction⟩

/-- The names of declared types in a type. -/
def TypeRef.names : TypeRef → List String
  | array t | pointer t | byRef t | pinned t => t.names
  | named name => [name]
  | primitive _ | anyArray | string => []

theorem TypeRef.inline_text {t : TypeRef} : Inline t.text ↔ ∀ n ∈ t.names, Inline n := by
  induction t with
  | primitive p => cases p <;> decide
  | anyArray | string => decide
  | named name => exact List.forall_mem_singleton.symm
  | array t ih | pointer t ih | byRef t ih | pinned t ih =>
    rw [text, inline_append, ih]
    exact and_iff_left (by decide)

/-- The names in the types of a signature. -/
def TypeRef.signatureNames (params : List TypeRef) (ret : TypeRef) : List String :=
  ret.names ++ params.flatMap names

theorem TypeRef.inline_params {params : List TypeRef} {ret : TypeRef} :
    Inline (commaList (params.map TypeRef.text)) ∧ Inline ret.text ↔
      ∀ n ∈ signatureNames params ret, Inline n := by
  rw [signatureNames, List.forall_mem_append, inline_commaList, List.forall_mem_map, List.forall_mem_flatMap,
    inline_text, and_comm]
  simp only [inline_text]

def MethodRef.names (m : MethodRef) : List String :=
  m.declaringType :: m.name :: TypeRef.signatureNames m.params m.ret

theorem MethodRef.inline_text {m : MethodRef} : Inline m.text ↔ ∀ n ∈ m.names, Inline n := by
  have hmarks : Inline " " ∧ Inline "::" ∧ Inline "(" ∧ Inline ")" := by decide
  simp only [names, List.forall_mem_cons, ← TypeRef.inline_params, text, inline_append, hmarks, and_true]
  exact ⟨fun h => ⟨h.1.1.2, h.1.2, h.2, h.1.1.1⟩, fun h => ⟨⟨⟨h.2.2.2, h.1⟩, h.2.1⟩, h.2.2.1⟩⟩

def FieldRef.names (f : FieldRef) : List String := [f.declaringType, f.name]

theorem FieldRef.inline_text {f : FieldRef} : Inline f.text ↔ ∀ n ∈ f.names, Inline n := by
  have hmark : Inline "::" := by decide
  simp only [names, List.forall_mem_cons, text, inline_append, hmark, and_true]
  exact and_congr_right fun _ => (and_iff_left (List.forall_mem_nil _)).symm

theorem Width.inline_text (w : Width) : Inline w.text := by
  cases w <;> decide

theorem Conversion.inline_text (k : Conversion) : Inline k.text := by
  cases k <;> decide

namespace Op

/-- The names in the operand of an instruction. -/
def names : Op → List String
  | jmp m | call m | callvirt m | newobj m | ldftn m | ldvirtftn m => m.names
  | field _ f | staticField _ f => f.names
  | castclass t | isinst t | box t | unbox t | unboxAny t | ldobj t | stobj t | cpobj t | initobj t
  | sizeof t | mkrefany t | refanyval t | newarr t | ldelema t | ldelemAny t | stelemAny t
  | constrained t => t.names
  | _ => []

theorem inline_mnemonic (op : Op) : Inline op.mnemonic := by
  cases op with
  | load v | address v | store v => cases v <;> simp only [mnemonic, Variable.text] <;> decide
  | push l => cases l <;> simp only [mnemonic] <;> decide
  | brIf c => cases c <;> simp only [mnemonic, Condition.text] <;> decide
  | arith a => cases a <;> decide
  | checked a => cases a <;> decide
  | compare c => cases c <;> decide
  | ldind w | stind w | ldelem w | stelem w => exact inline_append.mpr ⟨by decide, w.inline_text⟩
  | conv check k =>
    have hk := k.inline_text
    cases check with
    | none | signed => exact inline_append.mpr ⟨by decide, hk⟩
    | unsigned => exact inline_append.mpr ⟨inline_append.mpr ⟨by decide, hk⟩, by decide⟩
  | field a | staticField a => cases a <;> simp only [mnemonic] <;> decide
  | _ =>
    simp only [mnemonic]
    decide

theorem inline_operandText {op : Op} {s : String} (hs : op.operandText? = some s) :
    Inline s ↔ ∀ n ∈ op.names, Inline n := by
  have hnone : Inline s → op.names = [] → (Inline s ↔ ∀ n ∈ op.names, Inline n) := by
    intro hinline hnames
    rw [hnames]
    exact iff_of_true hinline (List.forall_mem_nil _)
  cases op with
  | load | address | store | unaligned | no =>
    cases hs
    exact hnone (inline_toString_nat _) rfl
  | push l =>
    cases l with
    | null => cases hs
    | int32 | int64 =>
      cases hs
      exact hnone (inline_toString_int _) rfl
    | real32 | real64 =>
      cases hs
      exact hnone (BinaryValue.inline_plain _) rfl
    | str s =>
      cases hs
      exact hnone (inline_quoted s) rfl
  | jmp | call | callvirt | newobj | ldftn | ldvirtftn =>
    cases hs
    exact MethodRef.inline_text
  | br | brFalse | brTrue | brIf | leave =>
    cases hs
    exact hnone (inline_codeOffset _) rfl
  | switch ts =>
    cases hs
    have hlist : Inline (commaList (ts.map codeOffset)) :=
      inline_commaList.mpr (List.forall_mem_map.mpr fun t _ => inline_codeOffset t)
    exact hnone (inline_append.mpr ⟨inline_append.mpr ⟨by decide, hlist⟩, by decide⟩) rfl
  | field | staticField =>
    cases hs
    exact FieldRef.inline_text
  | castclass | isinst | box | unbox | unboxAny | ldobj | stobj | cpobj | initobj | sizeof | mkrefany
  | refanyval | newarr | ldelema | ldelemAny | stelemAny | constrained =>
    cases hs
    exact TypeRef.inline_text
  | _ => cases hs

theorem names_of_operandText {op : Op} (h : op.operandText? = none) : op.names = [] := by
  cases op with
  | push l => rfl
  | _ => first | rfl | cases h

theorem inline_text {op : Op} : Inline op.text ↔ ∀ n ∈ op.names, Inline n := by
  unfold text
  split
  · rename_i operand hs
    have hblank : Inline " " := by decide
    simp only [inline_append, inline_mnemonic op, hblank, true_and]
    exact inline_operandText hs
  · rename_i hnone
    rw [names_of_operandText hnone]
    exact iff_of_true (inline_mnemonic op) (List.forall_mem_nil _)

end Op

theorem Instruction.inline_text {i : Instruction} : Inline i.text ↔ ∀ n ∈ i.op.names, Inline n := by
  have hmark : Inline ": " := by decide
  simp only [text, inline_append, inline_codeOffset, hmark, true_and]
  exact Op.inline_text

namespace MethodDef

/-- The names that a method shows: its own, those of its signature and those of its operands. -/
def names (m : MethodDef) : List String :=
  m.name :: TypeRef.signatureNames m.params m.ret ++ m.code.flatMap (·.op.names)

theorem inline_signature {m : MethodDef} (h : ∀ n ∈ m.names, Inline n) : Inline m.signature := by
  simp only [names, List.cons_append, List.forall_mem_cons, List.forall_mem_append] at h
  obtain ⟨hparams, hret⟩ := TypeRef.inline_params.mpr h.2.1
  simp only [signature, inline_append]
  exact ⟨⟨⟨by decide, hparams⟩, by decide⟩, hret⟩

end MethodDef

end CilMmix
