import CilMmix.Lowering.Instruction
import CilMmix.Proofs.Machine.Basic

/-! The lines of an instruction with its label. The label goes to the first operation, or to a line of
its own when there is none. It does not matter to a run. -/

namespace CilMmix

namespace Line

/-- Operations without a label, and comments. -/
def Plain : Line → Prop
  | op none _ _ | comment _ => True
  | _ => False

theorem plain_ins (code : Opcode) (operands : List Operand) : (ins code operands).Plain := trivial

/-- The code of an instruction: plain lines, of which an operation comes first. -/
structure IsCode (lines : List Line) : Prop where
  plain : ∀ l ∈ lines, l.Plain
  starts : lines = [] ∨ ∃ code operands rest, lines = ins code operands :: rest

theorem isCode_of_ins {lines : List Line} (h : ∀ l ∈ lines, ∃ code operands, l = ins code operands) :
    IsCode lines where
  plain l hl := by
    obtain ⟨code, operands, rfl⟩ := h l hl
    exact plain_ins code operands
  starts := by
    cases lines with
    | nil => exact .inl rfl
    | cons l rest =>
      obtain ⟨code, operands, rfl⟩ := h l List.mem_cons_self
      exact .inr ⟨code, operands, rest, rfl⟩

/-- The lines with a label on the first operation. -/
def labelled (label : String) : List Line → List Line
  | [] => [bare label]
  | op none code operands :: rest => op (some label) code operands :: rest
  | line :: rest => line :: labelled label rest

def labelled? : Option String → List Line → List Line
  | none, lines => lines
  | some label, lines => labelled label lines

end Line

namespace Writer

theorem emitAll_of_pending_none {w : Writer} {lines : List Line} (hw : w.pending = none)
    (h : ∀ l ∈ lines, l.Plain) : w.emitAll lines = { w with lines := w.lines ++ lines } := by
  obtain ⟨annotate, written, pending⟩ := w
  cases hw
  induction lines generalizing written with
  | nil => simp [emitAll]
  | cons l lines ih =>
    have hrest := ih (fun l' hl' => h l' (List.mem_cons_of_mem _ hl')) (written ++ [l])
    have hl := h l List.mem_cons_self
    match l with
    | .op none code operands | .comment text =>
      simp only [List.append_assoc, List.singleton_append] at hrest
      exact hrest

theorem finish_emitAll_of_pending_some {w : Writer} {label : String} {lines : List Line}
    (hw : w.pending = some label) (h : ∀ l ∈ lines, l.Plain) :
    (w.emitAll lines).finish = w.lines ++ Line.labelled label lines := by
  obtain ⟨annotate, written, pending⟩ := w
  cases hw
  induction lines generalizing written with
  | nil => rfl
  | cons l lines ih =>
    have hplain : ∀ l' ∈ lines, l'.Plain := fun l' hl' => h l' (List.mem_cons_of_mem _ hl')
    have hl := h l List.mem_cons_self
    match l with
    | .op none code operands =>
      -- The operation takes the label, and nothing waits any more.
      have hrest := emitAll_of_pending_none
        (w := ⟨annotate, written ++ [.op (some label) code operands], none⟩) rfl hplain
      change (Writer.emitAll ⟨annotate, written ++ [.op (some label) code operands], none⟩ lines).finish
        = written ++ .op (some label) code operands :: lines
      rw [hrest]
      simp [finish, flush]
    | .comment text =>
      have hrest := ih hplain (written ++ [.comment text])
      simp only [List.append_assoc, List.singleton_append] at hrest
      exact hrest

end Writer

theorem piece_eq {annotate : Bool} {label : Option String} {i : Instruction} {lines : List Line}
    (h : ∀ l ∈ lines, l.Plain) : piece annotate label i lines =
      (if annotate then [.comment i.text] else []) ++ Line.labelled? label lines := by
  have hremark : ({ annotate : Writer }.remark i.text) =
      { annotate, lines := if annotate then [.comment i.text] else [] } := by
    cases annotate <;> rfl
  rw [piece, hremark]
  cases label with
  | none =>
    rw [Writer.setLabel?, Writer.emitAll_of_pending_none rfl h]
    rfl
  | some label => exact Writer.finish_emitAll_of_pending_some rfl h

theorem Line.render_cons (l : Line) (lines : List Line) :
    render (l :: lines) = l.text ++ render lines := by
  simp [render, String.join_cons]

theorem Line.render_append (a b : List Line) : render (a ++ b) = render a ++ render b := by
  simp [render, String.join_append]

/-- The text of an instruction begins alike for all code that it may get. -/
theorem render_piece (annotate : Bool) (label : Option String) (i : Instruction) :
    ∃ start, ∀ lines, (∀ l ∈ lines, ∃ code operands, l = Line.ins code operands) →
      Line.render (piece annotate label i lines) = start ++
        if label.isSome && lines.isEmpty then " SWYM\n" else Line.render lines := by
  refine ⟨Line.render (if annotate then [.comment i.text] else []) ++ label.getD "", ?_⟩
  intro lines h
  rw [piece_eq (Line.isCode_of_ins h).plain, Line.render_append, String.append_assoc]
  congr 1
  cases label with
  | none => simp [Line.labelled?]
  | some label =>
    cases lines with
    | nil => simp [Line.labelled?, Line.labelled, Line.bare, Line.render, Line.text, Line.operandsText,
        Opcode.text, String.append_assoc]
    | cons l lines =>
      obtain ⟨code, operands, rfl⟩ := h l List.mem_cons_self
      simp [Line.labelled?, Line.labelled, Line.ins, Line.render_cons, Line.text, String.append_assoc]

/-- Labels and remarks do not matter to a run that comes to the end. -/
theorem run_piece {annotate : Bool} {label : Option String} {i : Instruction} {code : List Line}
    (hcode : Line.IsCode code) {machine machine' : Machine} (h : run code machine = (machine', .fall)) :
    run (piece annotate label i code) machine = (machine', .fall) := by
  have hremark : run (if annotate then [.comment i.text] else []) machine = (machine, .fall) := by
    cases annotate <;> rfl
  rw [piece_eq hcode.plain, run_append hremark]
  cases label with
  | none => exact h
  | some label =>
    rcases hcode.starts with rfl | ⟨opcode, operands, rest, rfl⟩
    · exact h
    · show run (.op (some label) opcode operands :: rest) machine = (machine', .fall)
      have hact : (Line.op (some label) opcode operands).act machine =
        (Line.ins opcode operands).act machine := rfl
      rw [run] at h ⊢
      rw [hact]
      cases hgo : (Line.ins opcode operands).act machine with
      | go => rwa [hgo] at h
      | jump | stop =>
        rw [hgo] at h
        cases h

end CilMmix
