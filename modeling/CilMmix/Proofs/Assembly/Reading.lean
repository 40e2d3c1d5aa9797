import Mathlib.Data.List.DropRight
import CilMmix.Proofs.Assembly.Written

/-! Assembly text read row by row. A row says which label it defines and which label it branches to, and
the text of lines reads as the lines say. -/

namespace CilMmix

/-- What a row of assembly text says about control. -/
structure Row where
  label? : Option String
  branch? : Option String
  isComment : Bool
  deriving DecidableEq

namespace Row

/-- The jump and the branches on a condition. -/
def branchNames : List String := ["JMP", "BN", "BZ", "BP", "BOD", "BNN", "BNZ", "BNP", "BEV"]

/-- A row begins with its label. After a blank comes the name of the operation, and after another one
come the operands, with commas in between; the last one of a branch is where it goes. -/
def read (cs : List Char) : Row :=
  let label := cs.takeWhile (· != ' ')
  let rest := (cs.dropWhile (· != ' ')).drop 1
  let name := rest.takeWhile (· != ' ')
  let operands := (rest.dropWhile (· != ' ')).drop 1
  { label? := if label = [] then none else some (String.ofList label)
    branch? := if String.ofList name ∈ branchNames then
      some (String.ofList (operands.rtakeWhile (· != ','))) else none
    isComment := label = [] ∧ name = ['%'] }

theorem takeWhile_append_stop {c : Char} {xs : List Char} (h : c ∉ xs) (ys : List Char) :
    (xs ++ c :: ys).takeWhile (· != c) = xs ∧ (xs ++ c :: ys).dropWhile (· != c) = c :: ys := by
  have hall : ∀ x ∈ xs, (x != c) = true := fun x hx => bne_iff_ne.mpr fun he => h (he ▸ hx)
  rw [List.takeWhile_append_of_pos hall, List.dropWhile_append_of_pos hall]
  simp

theorem takeWhile_all {c : Char} {xs : List Char} (h : c ∉ xs) :
    xs.takeWhile (· != c) = xs ∧ xs.dropWhile (· != c) = [] := by
  have hall : ∀ x ∈ xs, (x != c) = true := fun x hx => bne_iff_ne.mpr fun he => h (he ▸ hx)
  exact ⟨List.takeWhile_eq_self_iff.mpr hall, List.dropWhile_eq_nil_iff.mpr hall⟩

theorem rtakeWhile_append_stop {c : Char} {ys : List Char} (h : c ∉ ys) (xs : List Char) :
    (xs ++ c :: ys).rtakeWhile (· != c) = ys := by
  have hrev := (takeWhile_append_stop (mt List.mem_reverse.mp h) xs.reverse).1
  rw [List.rtakeWhile, List.reverse_append, List.reverse_cons, List.append_assoc]
  exact (congrArg List.reverse hrev).trans (List.reverse_reverse ys)

theorem read_parts {label name tail : List Char} (hl : ' ' ∉ label) (hn : ' ' ∉ name)
    (ht : tail = [] ∨ ∃ operands, tail = ' ' :: operands) :
    read (label ++ ' ' :: (name ++ tail)) =
      { label? := if label = [] then none else some (String.ofList label)
        branch? := if String.ofList name ∈ branchNames then
          some (String.ofList ((tail.drop 1).rtakeWhile (· != ','))) else none
        isComment := label = [] ∧ name = ['%'] } := by
  obtain ⟨htake, hdrop⟩ := takeWhile_append_stop hl (name ++ tail)
  have hname : (name ++ tail).takeWhile (· != ' ') = name ∧
      (name ++ tail).dropWhile (· != ' ') = tail := by
    rcases ht with rfl | ⟨operands, rfl⟩
    · simpa using takeWhile_all hn
    · exact takeWhile_append_stop hn operands
  simp only [read, htake, hdrop, List.drop_one, List.tail_cons, hname]

end Row

/-- The rows of a text. After the last line end there is one more, which is empty. -/
def Text.rows (s : String) : List Row := (s.toList.splitOn '\n').map Row.read

namespace Opcode

theorem text_chars {code : Opcode} (h : ∀ name, code ≠ other name) :
    Text.Inline code.text ∧ ' ' ∉ code.text.toList ∧ code.text ≠ "%" := by
  cases code with
  | other name => exact absurd rfl (h name)
  | _ => decide

theorem mem_branchNames {code : Opcode} (h : ∀ name, code ≠ other name) :
    code.text ∈ Row.branchNames ↔ code.branches = true := by
  cases code with
  | other name => exact absurd rfl (h name)
  | _ => decide

theorem operands_of_branch? {code : Opcode} {operands : List Operand} {s : String}
    (h : code.branch? operands = some s) : operands = [.sym s] ∨ ∃ r, operands = [.reg r, .sym s] := by
  unfold branch? at h
  split at h
  · cases h
    exact .inl rfl
  · obtain ⟨_, -, rfl⟩ := Option.map_eq_some_iff.mp h
    exact .inr ⟨_, rfl⟩
  · cases h

theorem branch?_of_not_branches {code : Opcode} (h : code.branches = false)
    (operands : List Operand) : code.branch? operands = none := by
  unfold branch?
  split
  · cases h
  · have htest : code.test? = none := by
      cases code <;> first | rfl | cases h
    rw [htest]
    rfl
  · rfl

end Opcode

namespace Line

def isComment : Line → Bool
  | comment _ => true
  | _ => false

def row (l : Line) : Row := ⟨l.label?, l.branch?, l.isComment⟩

/-- A line that can be read: its label is a symbol, its remark and its operands stay on the row, and a
branch goes to a symbol. -/
def Tidy : Line → Prop
  | op label code operands => (∀ s, label = some s → IsSymbol s) ∧ (∀ name, code ≠ .other name) ∧
      (∀ name, .sym name ∈ operands → Text.Inline name) ∧
      (code.branches = true → ∃ s, code.branch? operands = some s ∧ IsSymbol s)
  | note label remark => (∀ s, label = some s → IsSymbol s) ∧ Text.Inline remark
  | comment remark => Text.Inline remark
  | blank => True
  | verbatim _ => False

variable {l : Line}

theorem label_chars {label : Option String} (h : ∀ s, label = some s → IsSymbol s) :
    ' ' ∉ (label.getD "").toList ∧ Text.Inline (label.getD "") ∧
      (if (label.getD "").toList = [] then none else some (String.ofList (label.getD "").toList)) =
        label := by
  cases label with
  | none => decide
  | some s =>
    have hs := h s rfl
    have hne : s.toList ≠ [] := fun he => hs.ne_empty (String.toList_eq_nil_iff.mp he)
    exact ⟨hs.not_mem rfl (by decide), hs.inline, by simp [hne]⟩

theorem inline_operandsText {operands : List Operand}
    (h : ∀ name, .sym name ∈ operands → Text.Inline name) : Text.Inline (operandsText operands) := by
  have hall : ∀ s ∈ operands.map Operand.text, Text.Inline s := by
    intro s hs
    obtain ⟨o, ho, rfl⟩ := List.mem_map.mp hs
    cases o with
    | reg r => exact Text.inline_append.mpr ⟨by decide, Text.inline_toString_nat _⟩
    | imm n => exact Text.inline_toString_nat n
    | sym name => exact h name ho
    | hex places n => exact Text.inline_append.mpr ⟨by decide, Text.inline_upperHex _ _⟩
  cases operands with
  | nil => decide
  | cons o operands =>
    exact Text.inline_append.mpr ⟨by decide, (Text.inline_intercalate (by decide)).mpr hall⟩

theorem operandsText_tail (operands : List Operand) :
    (operandsText operands).toList = [] ∨ ∃ cs, (operandsText operands).toList = ' ' :: cs := by
  cases operands with
  | nil => exact .inl rfl
  | cons o operands => exact .inr ⟨_, String.toList_append⟩

/-- The last operand of a branch is read as it is written. -/
theorem read_branch {code : Opcode} {operands : List Operand} {s : String}
    (h : code.branch? operands = some s) (hs : IsSymbol s) :
    String.ofList (((operandsText operands).toList.drop 1).rtakeWhile (· != ',')) = s := by
  have hcomma : ',' ∉ s.toList := hs.not_mem rfl (by decide)
  rcases Opcode.operands_of_branch? h with rfl | ⟨r, rfl⟩
  · have hself : s.toList.rtakeWhile (· != ',') = s.toList :=
      List.rtakeWhile_eq_self_iff.mpr fun c hc => bne_iff_ne.mpr fun he => hcomma (he ▸ hc)
    simp [operandsText, Operand.text, hself]
  · have hlast := Row.rtakeWhile_append_stop hcomma r.text.toList
    simp [operandsText, Operand.text, String.intercalate_cons_cons, hlast]

theorem read_branch? {code : Opcode} {operands : List Operand} (hcode : ∀ name, code ≠ .other name)
    (h : code.branches = true → ∃ s, code.branch? operands = some s ∧ IsSymbol s) :
    (if String.ofList code.text.toList ∈ Row.branchNames then
      some (String.ofList (((operandsText operands).toList.drop 1).rtakeWhile (· != ','))) else none) =
      code.branch? operands := by
  rw [String.ofList_toList]
  by_cases hb : code.branches = true
  · obtain ⟨s, hbranch, hs⟩ := h hb
    rw [if_pos ((Opcode.mem_branchNames hcode).mpr hb), read_branch hbranch hs, hbranch]
  · rw [if_neg (mt (Opcode.mem_branchNames hcode).mp hb)]
    exact (Opcode.branch?_of_not_branches (Bool.eq_false_iff.mpr hb) operands).symm

/-- A tidy line is one row, and it reads as the line. -/
theorem Tidy.read (h : l.Tidy) :
    ∃ cs, l.text.toList = cs ++ ['\n'] ∧ '\n' ∉ cs ∧ Row.read cs = l.row := by
  cases l with
  | blank => exact ⟨[], rfl, List.not_mem_nil, rfl⟩
  | verbatim => exact h.elim
  | comment remark =>
    have hremark : '\n' ∉ remark.toList := h
    refine ⟨[] ++ ' ' :: (['%'] ++ ' ' :: remark.toList), by simp [text], by simpa using hremark, ?_⟩
    rw [Row.read_parts List.not_mem_nil (by decide) (.inr ⟨_, rfl⟩)]
    rfl
  | note label remark =>
    obtain ⟨hlabel, hremark⟩ := h
    obtain ⟨hblank, hinline, hread⟩ := label_chars hlabel
    have hremark : '\n' ∉ remark.toList := hremark
    have hinline : '\n' ∉ (label.getD "").toList := hinline
    refine ⟨(label.getD "").toList ++ ' ' :: ("SWYM".toList ++ ' ' :: '%' :: ' ' :: remark.toList),
      by simp [text], by simp [hremark, hinline], ?_⟩
    rw [Row.read_parts hblank (by decide) (.inr ⟨_, rfl⟩), hread]
    simp [row, isComment, Line.label?, Line.branch?, Row.branchNames]
  | op label code operands =>
    obtain ⟨hlabel, hcode, hops, hbranch⟩ := h
    obtain ⟨hblank, hinline, hread⟩ := label_chars hlabel
    obtain ⟨hcodeInline, hcodeBlank, hcodeRemark⟩ := Opcode.text_chars hcode
    have hinline : '\n' ∉ (label.getD "").toList := hinline
    have hcodeInline : '\n' ∉ code.text.toList := hcodeInline
    have htextInline : '\n' ∉ (operandsText operands).toList := inline_operandsText hops
    have hremark : code.text.toList ≠ ['%'] := fun he => hcodeRemark (String.toList_injective he)
    refine ⟨(label.getD "").toList ++ ' ' :: (code.text.toList ++ (operandsText operands).toList),
      by simp [text], by simp [hinline, hcodeInline, htextInline], ?_⟩
    rw [Row.read_parts hblank hcodeBlank (operandsText_tail operands), hread,
      read_branch? hcode hbranch]
    simp [row, isComment, Line.label?, Line.branch?, hremark]

/-- The text of tidy lines has their rows. -/
theorem rows_render {lines : List Line} (h : ∀ l ∈ lines, l.Tidy) :
    Text.rows (render lines) = lines.map row ++ [⟨none, none, false⟩] := by
  induction lines with
  | nil => rfl
  | cons l lines ih =>
    obtain ⟨cs, htext, hcs, hread⟩ := (h l List.mem_cons_self).read
    have hrest := ih fun l' hl' => h l' (List.mem_cons_of_mem _ hl')
    rw [Text.rows] at hrest ⊢
    rw [render_cons, String.toList_append, htext, List.append_assoc, List.singleton_append,
      List.splitOn_append_cons_self_of_not_mem hcs, List.map_cons, hrest, hread]
    rfl

end Line

end CilMmix
