import CilMmix.Assembly.Writer
import CilMmix.Proofs.Assembly.Reading

/-! Where a writer puts labels. Whatever it is asked for, it writes all lines and all labels in the order
of the calls. A label goes to the first operation after it; if another label, text from elsewhere, the end,
or the call for it comes first, it gets a line of its own there. Comments and blank lines let it wait. -/

namespace CilMmix

/-- A text of whole lines. -/
def Text.Whole (s : String) : Prop := s = "" ∨ ∃ front, s = front ++ "\n"

namespace Text

theorem lines_whole_append {a : String} (h : Whole a) (b : String) :
    lines (a ++ b) = (lines a).dropLast ++ lines b := by
  rcases h with rfl | ⟨front, rfl⟩
  · rw [String.empty_append]
    rfl
  · have hself := lines_append_newline front ""
    rw [String.append_empty] at hself
    rw [lines_append_newline, hself]
    exact congrArg (· ++ _) (List.dropLast_concat ..).symm

end Text

namespace Line

/-- The rows of a line, without their ends: one, but for text from elsewhere. -/
def rows : Line → List String
  | op label code operands => [label.getD "" ++ " " ++ code.text ++ operandsText operands]
  | note label remark => [label.getD "" ++ " SWYM % " ++ remark]
  | comment remark => [" % " ++ remark]
  | blank => [""]
  | verbatim text => (Text.lines text).dropLast

/-- Nothing in the line breaks it; text from elsewhere may have several lines. -/
def Inline : Line → Prop
  | op label code operands => Text.Inline (label.getD "") ∧ Text.Inline code.text ∧
      ∀ name, .sym name ∈ operands → Text.Inline name
  | note label remark => Text.Inline (label.getD "") ∧ Text.Inline remark
  | comment remark => Text.Inline remark
  | blank | verbatim _ => True

theorem Inline.row {l : Line} (h : l.Inline) (hl : ∀ text, l ≠ verbatim text) :
    ∃ row, l.rows = [row] ∧ l.text = row ++ "\n" ∧ Text.Inline row := by
  cases l with
  | op label code operands =>
    obtain ⟨hlabel, hcode, hoperands⟩ := h
    refine ⟨_, rfl, rfl, ?_⟩
    simp only [Text.inline_append]
    exact ⟨⟨⟨hlabel, by decide⟩, hcode⟩, inline_operandsText hoperands⟩
  | note label remark =>
    refine ⟨_, rfl, rfl, ?_⟩
    simp only [Text.inline_append]
    exact ⟨⟨h.1, by decide⟩, h.2⟩
  | comment remark => exact ⟨_, rfl, rfl, Text.inline_append.mpr ⟨by decide, h⟩⟩
  | blank => exact ⟨"", rfl, rfl, by decide⟩
  | verbatim text => exact absurd rfl (hl text)

/-- The text of lines has their rows, one after the other. -/
theorem lines_render {lines : List Line} (h : ∀ l ∈ lines, l.Inline)
    (hwhole : ∀ text, verbatim text ∈ lines → Text.Whole text) :
    Text.lines (render lines) = lines.flatMap rows ++ [""] := by
  induction lines with
  | nil => rfl
  | cons l lines ih =>
    obtain ⟨hl, hrest⟩ := List.forall_mem_cons.mp h
    have hih := ih hrest fun text htext => hwhole text (List.mem_cons_of_mem _ htext)
    rw [render_cons, List.flatMap_cons, List.append_assoc, ← hih]
    by_cases htext : ∃ text, l = verbatim text
    · obtain ⟨text, rfl⟩ := htext
      exact Text.lines_whole_append (hwhole text List.mem_cons_self) _
    · obtain ⟨row, hrows, heq, hinline⟩ := hl.row fun text he => htext ⟨text, he⟩
      rw [hrows, heq, Text.lines_append_newline, Text.lines_of_inline hinline]

/-- An operation without a label takes the one that waits. -/
def takes : Line → Bool
  | op none _ _ | note none _ => true
  | _ => false

/-- Comments and blank lines leave a label waiting. -/
def quiet : Line → Bool
  | comment _ | blank => true
  | _ => false

def withLabel (name : String) : Line → Line
  | op _ code operands => op (some name) code operands
  | note _ text => note (some name) text
  | l => l

end Line

namespace Writer

/-- What a writer can be asked for. -/
inductive Call where
  | setLabel (label : String)
  | flush
  | op (code : Opcode) (operands : List Operand)
  | nop (text : String)
  | comment (text : String)
  | remark (text : String)
  | blank
  | append (text : String)
  | loadConstant (r : Reg) (value : UInt64)
  | copyWords (source dest count : Nat)

def perform (w : Writer) : Call → Writer
  | .setLabel label => w.setLabel label
  | .flush => w.flush
  | .op code operands => w.emit (.ins code operands)
  | .nop text => w.emit (.note none text)
  | .comment text => w.emit (.comment text)
  | .remark text => w.remark text
  | .blank => w.emit .blank
  | .append text => w.append [.verbatim text]
  | .loadConstant r value => w.emitAll (loadConstant r value)
  | .copyWords source dest count => w.emitAll (copyWords source dest count).lines

/-- What a new writer has written in the end. -/
def linesOf (annotate : Bool) (calls : List Call) : List Line := (calls.foldl perform { annotate }).finish

/-- What calls come down to: labels, demands that no label waits any longer, and lines. -/
inductive Item where
  | label (name : String)
  | flush
  | line (l : Line)

namespace Item

def label? : Item → Option String
  | label name => some name
  | _ => none

def line? : Item → Option Line
  | line l => some l
  | _ => none

/-- A label that waits must come before what is next: the end, another label, text from elsewhere, or the
demand for it. -/
def Ends : List Item → Prop
  | [] | label _ :: _ | flush :: _ | line (.verbatim _) :: _ => True
  | line _ :: _ => False

/-- Nothing breaks a line, and the lines have no label yet. -/
def Fresh : Item → Prop
  | label name => Text.Inline name
  | flush => True
  | line l => l.label? = none ∧ l.Inline

end Item

namespace Call

def items (annotate : Bool) : Call → List Item
  | setLabel label => [.label label]
  | flush => [.flush]
  | op code operands => [.line (.ins code operands)]
  | nop text => [.line (.note none text)]
  | comment text => [.line (.comment text)]
  | remark text => if annotate then [.line (.comment text)] else []
  | blank => [.line .blank]
  | append text => [.line (.verbatim text)]
  | loadConstant r value => (CilMmix.loadConstant r value).map .line
  | copyWords source dest count => (CilMmix.copyWords source dest count).lines.map .line

/-- No argument breaks a line. Text from elsewhere has lines of its own. -/
def Inline : Call → Prop
  | setLabel label => Text.Inline label
  | op code operands => Text.Inline code.text ∧ ∀ name, .sym name ∈ operands → Text.Inline name
  | nop text | comment text | remark text => Text.Inline text
  | flush | blank | append _ | loadConstant _ _ | copyWords _ _ _ => True

end Call

def itemsOf (annotate : Bool) (calls : List Call) : List Item := calls.flatMap (Call.items annotate)

/-- A line of the result: one that a call wrote, perhaps with a label, or one that is only there for the
label. -/
inductive Slot where
  | own (label : Option String) (l : Line)
  | bare (name : String)

namespace Slot

def line : Slot → Line
  | own none l => l
  | own (some name) l => l.withLabel name
  | bare name => .bare name

def label? : Slot → Option String
  | own label _ => label
  | bare name => some name

def written? : Slot → Option Line
  | own _ l => some l
  | bare _ => none

end Slot

/-- Every line and every label is there once, and each kind in the order of the items. -/
structure Kept (items : List Item) (slots : List Slot) : Prop where
  lines : slots.filterMap Slot.written? = items.filterMap Item.line?
  labels : slots.filterMap Slot.label? = items.filterMap Item.label?

/-- A label before these items stands where it should among the slots for them. -/
inductive Stands (name : String) : List Item → List Slot → Prop
  | later {l items slots} : l.quiet = true → Stands name items slots →
      Stands name (.line l :: items) (.own none l :: slots)
  | onto {l items slots} : l.takes = true → Kept items slots →
      Stands name (.line l :: items) (.own (some name) l :: slots)
  | alone {items slots} : Item.Ends items → Kept items slots → Stands name items (.bare name :: slots)

def put (w : Writer) : Item → Writer
  | .label name => w.setLabel name
  | .flush => w.flush
  | .line l => w.emit l

/-- The slots for items after a label that waits, if there is one. -/
def place : Option String → List Item → List Slot
  | waiting, [] => waiting.toList.map .bare
  | waiting, .label name :: items => waiting.toList.map .bare ++ place (some name) items
  | waiting, .flush :: items => waiting.toList.map .bare ++ place none items
  | waiting, .line l :: items =>
    if l.takes then .own waiting l :: place none items
    else if l.quiet then .own none l :: place waiting items
    else waiting.toList.map .bare ++ .own none l :: place none items

theorem finish_put (w : Writer) (items : List Item) :
    (items.foldl put w).finish = w.lines ++ (place w.pending items).map Slot.line := by
  induction items generalizing w with
  | nil =>
    obtain ⟨annotate, lines, pending⟩ := w
    cases pending <;> simp [finish, flush, place, Slot.line]
  | cons item items ih =>
    rw [List.foldl_cons, ih]
    obtain ⟨annotate, lines, pending⟩ := w
    cases item with
    | label name => cases pending <;> simp [put, setLabel, flush, place, Slot.line]
    | flush => cases pending <;> simp [put, flush, place, Slot.line]
    | line l =>
      -- A line that has a label already comes after the one that waits, as text from elsewhere does.
      cases l with
      | op label | note label =>
        cases label <;> cases pending <;>
          simp [put, emit, flush, place, Slot.line, Line.takes, Line.quiet, Line.withLabel]
      | comment | blank => simp [put, emit, place, Slot.line, Line.takes, Line.quiet]
      | verbatim text =>
        cases pending <;> simp [put, emit, flush, place, Slot.line, Line.takes, Line.quiet]

theorem perform_eq_put (w : Writer) (c : Call) :
    w.perform c = (c.items w.annotate).foldl put w := by
  cases c with
  | remark text =>
    simp only [perform, remark, Call.items]
    split <;> rfl
  | loadConstant | copyWords => simp [perform, emitAll, Call.items, List.foldl_map, put]
  | _ => rfl

theorem annotate_put (w : Writer) (items : List Item) : (items.foldl put w).annotate = w.annotate := by
  induction items generalizing w with
  | nil => rfl
  | cons item items ih =>
    rw [List.foldl_cons, ih]
    have hflush : w.flush.annotate = w.annotate := by
      unfold flush
      split <;> rfl
    cases item with
    | label | flush => exact hflush
    | line l =>
      cases l with
      | op label | note label =>
        cases label with
        | none => rfl
        | some _ => exact hflush
      | comment | blank => rfl
      | verbatim => exact hflush

theorem performAll_eq_put (w : Writer) (calls : List Call) :
    calls.foldl perform w = (itemsOf w.annotate calls).foldl put w := by
  induction calls generalizing w with
  | nil => rfl
  | cons c calls ih =>
    rw [List.foldl_cons, ih, perform_eq_put, annotate_put, itemsOf, itemsOf, List.flatMap_cons,
      List.foldl_append]

theorem linesOf_eq (annotate : Bool) (calls : List Call) :
    linesOf annotate calls = (place none (itemsOf annotate calls)).map Slot.line := by
  rw [linesOf, performAll_eq_put, finish_put]
  rfl

theorem kept_place (waiting : Option String) (items : List Item) :
    (place waiting items).filterMap Slot.written? = items.filterMap Item.line? ∧
      (place waiting items).filterMap Slot.label? = waiting.toList ++ items.filterMap Item.label? := by
  have hbare (waiting : Option String) :
      (waiting.toList.map Slot.bare).filterMap Slot.written? = [] ∧
        (waiting.toList.map Slot.bare).filterMap Slot.label? = waiting.toList := by
    cases waiting <;> exact ⟨rfl, rfl⟩
  induction items generalizing waiting with
  | nil => simpa [place] using hbare waiting
  | cons item items ih =>
    cases item with
    | label | flush => simp [place, hbare, ih, List.filterMap_cons, Item.line?, Item.label?]
    | line l =>
      rw [place]
      split
      · cases waiting <;>
          simp [ih, List.filterMap_cons, Slot.written?, Slot.label?, Item.line?, Item.label?]
      · split <;>
          simp [hbare, ih, List.filterMap_cons, Slot.written?, Slot.label?, Item.line?, Item.label?]

theorem kept_place_none (items : List Item) : Kept items (place none items) :=
  ⟨(kept_place none items).1, (kept_place none items).2⟩

theorem place_append_label (waiting : Option String) (before : List Item) (name : String)
    (after : List Item) : place waiting (before ++ .label name :: after) =
      place waiting before ++ place (some name) after := by
  induction before generalizing waiting with
  | nil => simp [place]
  | cons item before ih =>
    cases item with
    | label | flush => simp [place, ih]
    | line l =>
      simp only [List.cons_append, place, ih]
      split
      · rfl
      · split <;> simp

theorem place_of_ends (name : String) {items : List Item} (h : Item.Ends items) :
    place (some name) items = .bare name :: place none items := by
  cases items with
  | nil => rfl
  | cons item items =>
    cases item with
    | label | flush => simp [place]
    | line l =>
      cases l with
      | verbatim text => simp [place, Line.takes, Line.quiet]
      | op | note | comment | blank => exact h.elim

theorem stands_place (name : String) {items : List Item} (h : ∀ item ∈ items, item.Fresh) :
    Stands name items (place (some name) items) := by
  have halone {items : List Item} (hends : Item.Ends items) :
      Stands name items (place (some name) items) := by
    rw [place_of_ends name hends]
    exact .alone hends (kept_place_none _)
  induction items with
  | nil => exact halone trivial
  | cons item items ih =>
    obtain ⟨hitem, hrest⟩ := List.forall_mem_cons.mp h
    cases item with
    | label | flush => exact halone trivial
    | line l =>
      cases l with
      | op label | note label =>
        obtain rfl : label = none := hitem.1
        exact .onto rfl (kept_place_none items)
      | comment | blank => exact .later rfl (ih hrest)
      | verbatim text => exact halone trivial

theorem takes_of_mem_place {waiting : Option String} {items : List Item} {name : String} {l : Line}
    (h : .own (some name) l ∈ place waiting items) : l.takes = true := by
  induction items generalizing waiting with
  | nil => cases waiting <;> simp [place] at h
  | cons item items ih =>
    cases item with
    | label | flush =>
      rcases List.mem_append.mp h with h | h
      · cases waiting <;> simp at h
      · exact ih h
    | line l' =>
      rw [place] at h
      split at h
      · rcases List.mem_cons.mp h with he | h
        · cases he
          assumption
        · exact ih h
      · split at h
        · rcases List.mem_cons.mp h with he | h
          · cases he
          · exact ih h
        · rcases List.mem_append.mp h with h | h
          · cases waiting <;> simp at h
          · rcases List.mem_cons.mp h with he | h
            · cases he
            · exact ih h

theorem Call.Inline.items {c : Call} (h : c.Inline) (annotate : Bool) :
    ∀ item ∈ c.items annotate, item.Fresh := by
  have hempty : Text.Inline "" := by decide
  cases c with
  | setLabel label => exact List.forall_mem_singleton.mpr h
  | flush => exact List.forall_mem_singleton.mpr trivial
  | op | nop => exact List.forall_mem_singleton.mpr ⟨rfl, hempty, h⟩
  | comment text => exact List.forall_mem_singleton.mpr ⟨rfl, h⟩
  | remark text =>
    cases annotate with
    | false => exact List.forall_mem_nil _
    | true => exact List.forall_mem_singleton.mpr ⟨rfl, h⟩
  | blank | append => exact List.forall_mem_singleton.mpr ⟨rfl, trivial⟩
  | loadConstant r value =>
    have hcodes : ∀ code ∈ partCodes, Text.Inline code.text := by decide
    intro item hitem
    obtain ⟨l, hl, rfl⟩ := List.mem_map.mp hitem
    rcases mem_loadConstant hl with ⟨code, hcode, n, -, rfl⟩ | rfl | ⟨-, rfl⟩
    · exact ⟨rfl, hempty, hcodes code hcode, by simp⟩
    · exact ⟨rfl, hempty, by decide, by simp⟩
    · exact ⟨rfl, hempty, by decide, by simp⟩
  | copyWords source dest count =>
    intro item hitem
    obtain ⟨l, hl, rfl⟩ := List.mem_map.mp hitem
    obtain ⟨_, x, y, -, -, rfl⟩ := mem_copyWords hl
    exact ⟨rfl, hempty, by decide, by simp⟩

theorem append_of_mem_items {c : Call} {annotate : Bool} {text : String}
    (h : .line (.verbatim text) ∈ c.items annotate) : c = .append text := by
  cases c with
  | append text' => simpa [Call.items, eq_comm] using h
  | remark text' => cases annotate <;> simp [Call.items] at h
  | loadConstant r value =>
    obtain ⟨l, hl, he⟩ := List.mem_map.mp h
    obtain ⟨code, operands, rfl⟩ := loadConstant_ins hl
    cases he
  | copyWords source dest count =>
    obtain ⟨l, hl, he⟩ := List.mem_map.mp h
    obtain ⟨_, x, y, -, -, rfl⟩ := mem_copyWords hl
    cases he
  | _ => simp [Call.items, Line.ins] at h

theorem Slot.written_of_verbatim {s : Slot} {text : String} (h : s.line = .verbatim text) :
    s.written? = some (.verbatim text) := by
  cases s with
  | bare => cases h
  | own label l =>
    cases label with
    | none => exact congrArg some h
    | some name =>
      cases l with
      | verbatim => exact congrArg some h
      | op | note | comment | blank => cases h

namespace Kept

variable {items : List Item} {slots : List Slot}

theorem line_mem (hk : Kept items slots) {s : Slot} (hs : s ∈ slots) {l : Line}
    (hl : s.written? = some l) : .line l ∈ items := by
  have hmem : l ∈ slots.filterMap Slot.written? := List.mem_filterMap.mpr ⟨s, hs, hl⟩
  rw [hk.lines] at hmem
  obtain ⟨item, hitem, he⟩ := List.mem_filterMap.mp hmem
  cases item with
  | line => cases he; exact hitem
  | label | flush => cases he

theorem label_mem (hk : Kept items slots) {s : Slot} (hs : s ∈ slots) {name : String}
    (hname : s.label? = some name) : .label name ∈ items := by
  have hmem : name ∈ slots.filterMap Slot.label? := List.mem_filterMap.mpr ⟨s, hs, hname⟩
  rw [hk.labels] at hmem
  obtain ⟨item, hitem, he⟩ := List.mem_filterMap.mp hmem
  cases item with
  | label => cases he; exact hitem
  | line | flush => cases he

theorem inline (hk : Kept items slots) (h : ∀ item ∈ items, item.Fresh) :
    ∀ s ∈ slots, s.line.Inline := by
  intro s hs
  have hlabel : ∀ name, s.label? = some name → Text.Inline name :=
    fun name hname => h _ (hk.label_mem hs hname)
  cases s with
  | bare name => exact ⟨hlabel name rfl, by decide, by simp⟩
  | own label l =>
    obtain ⟨-, hl⟩ := h _ (hk.line_mem hs rfl)
    cases label with
    | none => exact hl
    | some name =>
      cases l with
      | op | note => exact ⟨hlabel name rfl, hl.2⟩
      | comment | blank | verbatim => exact hl

end Kept

/-- A label is at the start of its row. -/
theorem rows_of_label {waiting : Option String} {items : List Item} {s : Slot} {name : String}
    (hs : s ∈ place waiting items) (h : s.label? = some name) :
    ∃ rest, s.line.rows = [name ++ " " ++ rest] := by
  cases s with
  | bare =>
    cases h
    exact ⟨"SWYM", congrArg (fun row => [row]) String.append_empty⟩
  | own label l =>
    obtain rfl : label = some name := h
    have htakes := takes_of_mem_place hs
    cases l with
    | op _ code operands =>
      refine ⟨code.text ++ Line.operandsText operands, ?_⟩
      rw [← String.append_assoc]
      rfl
    | note _ text =>
      refine ⟨"SWYM % " ++ text, ?_⟩
      have hblank : name ++ " SWYM % " = name ++ " " ++ "SWYM % " := by
        rw [String.append_assoc]
        rfl
      rw [← String.append_assoc, ← hblank]
      rfl
    | comment | blank | verbatim => cases htakes

/-- The result of calls, slot by slot. -/
structure Arranged (annotate : Bool) (calls : List Call) (slots : List Slot) : Prop where
  lines : linesOf annotate calls = slots.map Slot.line
  kept : Kept (itemsOf annotate calls) slots
  placed : ∀ before name after, itemsOf annotate calls = before ++ .label name :: after →
    ∃ first rest, slots = first ++ rest ∧ Kept before first ∧ Stands name after rest
  single : ∀ s ∈ slots, (∀ text, s.line ≠ .verbatim text) →
    ∃ row, s.line.rows = [row] ∧ s.line.text = row ++ "\n" ∧ Text.Inline row
  start : ∀ s ∈ slots, ∀ name, s.label? = some name → ∃ rest, s.line.rows = [name ++ " " ++ rest]
  /-- Unless text from elsewhere leaves a line open, all rows are lines of the text. -/
  rows : (∀ text, .append text ∈ calls → Text.Whole text) →
    Text.lines (Line.render (linesOf annotate calls)) = slots.flatMap (·.line.rows) ++ [""]

/-- Whatever a writer is asked for, no line and no label is lost, doubled or put out of order, and each
label stands on the operation, or on the line of its own, that it was meant for. -/
theorem labels_kept (annotate : Bool) (calls : List Call) (h : ∀ c ∈ calls, c.Inline) :
    ∃ slots, Arranged annotate calls slots := by
  have hfresh : ∀ item ∈ itemsOf annotate calls, item.Fresh := by
    intro item hitem
    obtain ⟨c, hc, hitem⟩ := List.mem_flatMap.mp hitem
    exact (h c hc).items annotate item hitem
  have hkept := kept_place_none (itemsOf annotate calls)
  have hinline := hkept.inline hfresh
  refine ⟨place none (itemsOf annotate calls), linesOf_eq annotate calls, hkept, ?_,
    fun s hs => (hinline s hs).row, fun s hs name => rows_of_label hs, fun hwhole => ?_⟩
  · -- A label divides the slots, and what comes before it does not depend on what comes after.
    intro before name after hitems
    rw [hitems] at hfresh
    rw [hitems, place_append_label]
    refine ⟨_, _, rfl, kept_place_none before, stands_place name fun item hitem => hfresh item ?_⟩
    exact List.mem_append_right _ (List.mem_cons_of_mem _ hitem)
  · rw [linesOf_eq, Line.lines_render, List.flatMap_map]
    · intro l hl
      obtain ⟨s, hs, rfl⟩ := List.mem_map.mp hl
      exact hinline s hs
    · intro text htext
      obtain ⟨s, hs, hline⟩ := List.mem_map.mp htext
      have hmem := hkept.line_mem hs (Slot.written_of_verbatim hline)
      obtain ⟨c, hc, hitem⟩ := List.mem_flatMap.mp hmem
      exact hwhole text (append_of_mem_items hitem ▸ hc)

/-- Two labels in a row, one that waits for a constant behind a comment, and one before the end. -/
def sampleCalls : List Call :=
  [.setLabel "A", .setLabel "B", .comment "note", .loadConstant .trap 0x10001, .append " TRAP 0\n",
    .setLabel "C", .blank]

theorem labels_kept_sample : (∀ c ∈ sampleCalls, c.Inline) ∧
    (∀ text, .append text ∈ sampleCalls → Text.Whole text) ∧
    Text.lines (Line.render (linesOf false sampleCalls)) =
      ["A SWYM", " % note", "B SETL $255,1", " ORML $255,1", " TRAP 0", "", "C SWYM", ""] ∧
    ∃ slots, Arranged false sampleCalls slots := by
  have hinline : ∀ c ∈ sampleCalls, c.Inline := by
    simp [sampleCalls, Call.Inline, Text.Inline]
  refine ⟨hinline, fun text htext => ?_, by decide +kernel, labels_kept false sampleCalls hinline⟩
  obtain rfl : text = " TRAP 0\n" := by simpa [sampleCalls] using htext
  exact .inr ⟨" TRAP 0", rfl⟩

/-- Text that leaves its line open. -/
def openCalls : List Call := [.append "x", .setLabel "L", .op .add [.reg .trap, .reg .trap, .imm 8]]

/-- The label that comes next is then not at the start of a line. -/
theorem label_not_at_start : (∀ c ∈ openCalls, c.Inline) ∧
    (∀ text, .append text ∈ openCalls → Text.Inline text) ∧
    Text.lines (Line.render (linesOf false openCalls)) = ["xL ADD $255,$255,8", ""] ∧
    ∀ row ∈ Text.lines (Line.render (linesOf false openCalls)), ¬ "L".toList <+: row.toList := by
  have hlines : Text.lines (Line.render (linesOf false openCalls)) = ["xL ADD $255,$255,8", ""] := by
    decide +kernel
  refine ⟨by simp [openCalls, Call.Inline, Text.Inline, Opcode.text], ?_, hlines, ?_⟩
  · simp [openCalls, Text.Inline]
  · rw [hlines]
    decide +kernel

end Writer

end CilMmix
