import CilMmix.Proofs.Assembly.Reading
import CilMmix.Proofs.Method.Pieces

/-! The text of a method has the control flow of its body: the pieces stand in the order of the
instructions, every label is defined once, and a branch goes to the piece of the instruction that it
names. -/

namespace CilMmix

theorem Site.isSymbol_branchLabel {site : Site} (h : IsSymbol site.label) (offset : UInt32) :
    IsSymbol (site.branchLabel offset) where
  ne_empty he := by
    have hlen := congrArg String.length he
    have hone : "_".length = 1 := rfl
    have hzero : "".length = 0 := rfl
    simp only [branchLabel, String.length_append] at hlen
    omega
  chars := by
    intro c hc
    simp only [branchLabel, String.toList_append, Nat.toString_eq_ofList_toDigits,
      String.toList_ofList, List.mem_append] at hc
    rcases hc with (hc | hc) | hc
    · exact h.chars c hc
    · exact .inr (by simpa using hc)
    · have hdigit := Nat.isDigit_of_mem_toDigits (by decide) (by decide) hc
      exact .inl (by simp [Char.isAlphanum, hdigit])

namespace Line

theorem Works.tidy {base : Nat} {calls : Bool} {target : Option String} {l : Line}
    (h : l.Works base calls target) (ht : ∀ s, target = some s → IsSymbol s) : l.Tidy := by
  obtain ⟨code, operands, rfl, hcode, hsyms, hbranches⟩ := h.isOp
  refine ⟨nofun, hcode, fun name hname => ?_, fun hb => ?_⟩
  · rcases hsyms name hname with hinline | htarget
    · exact hinline
    · exact (ht name htarget).inline
  · obtain ⟨label, hlabel⟩ := hbranches hb
    exact ⟨label, hlabel, ht label (h.branch label hlabel)⟩

theorem tidy_piece {lines : List Line} (hcode : IsCode lines) (h : ∀ l ∈ lines, l.Tidy)
    {annotate : Bool} {label : Option String} (hlabel : ∀ s, label = some s → IsSymbol s)
    {i : Instruction} (hi : Text.Inline i.text) : ∀ l ∈ piece annotate label i lines, l.Tidy := by
  intro l hl
  rw [piece_eq hcode.plain] at hl
  rcases List.mem_append.mp hl with hl | hl
  · split at hl
    · obtain rfl := List.mem_singleton.mp hl
      exact hi
    · cases hl
  cases label with
  | none => exact h l hl
  | some s =>
    have hs : ∀ s', some s = some s' → IsSymbol s' := hlabel
    rcases hcode.starts with rfl | ⟨code, operands, rest, rfl⟩
    · obtain rfl := List.mem_singleton.mp hl
      exact ⟨hs, nofun, nofun, nofun⟩
    · rcases List.mem_cons.mp hl with rfl | hl
      · have hfirst : (ins code operands).Tidy := h _ List.mem_cons_self
        exact ⟨hs, hfirst.2⟩
      · exact h l (List.mem_cons_of_mem _ hl)

/-- How often lines define a label. -/
def defs (label : String) (lines : List Line) : Nat := lines.countP (·.label? == some label)

theorem defs_append (label : String) (a b : List Line) :
    defs label (a ++ b) = defs label a + defs label b := List.countP_append

theorem defs_eq_zero {label : String} {lines : List Line} (h : ∀ l ∈ lines, l.label? ≠ some label) :
    defs label lines = 0 :=
  List.countP_eq_zero.mpr fun l hl he => h l hl (beq_iff_eq.mp he)

theorem defs_cons_self {label : String} {l : Line} (hl : l.label? = some label) (lines : List Line) :
    defs label (l :: lines) = defs label lines + 1 :=
  List.countP_cons_of_pos (beq_iff_eq.mpr hl)

/-- Code under a label defines it once. -/
theorem defs_labelled {lines : List Line} (h : IsCode lines) (label : String) :
    defs label (labelled label lines) = 1 := by
  rcases h.starts with rfl | ⟨code, operands, rest, rfl⟩
  · exact defs_cons_self rfl []
  · have hrest : defs label rest = 0 := by
      refine defs_eq_zero fun l hl => ?_
      rw [label?_of_plain (h.plain l (List.mem_cons_of_mem _ hl))]
      exact nofun
    exact (defs_cons_self rfl rest).trans (by rw [hrest])

theorem countP_rows {lines : List Line} (h : ∀ l ∈ lines, l.Tidy) (label : String) :
    (Text.rows (render lines)).countP (·.label? == some label) = defs label lines := by
  rw [rows_render h, List.countP_append, List.countP_map]
  rfl

end Line

/-- The code of a branch names the label of its target. -/
theorem Lower.instruction_branches {site : Site} {i : Instruction} {s t : LowerState}
    {code : List Line} (h : instruction site i s = .ok (code, t)) {target : UInt32}
    (ht : i.op.branchTarget? = some target) :
    ∃ l ∈ code, l.branch? = some (site.branchLabel target) := by
  obtain ⟨offset, op⟩ := i
  cases op with
  | br t =>
    cases ht
    cases h
    exact ⟨_, List.mem_cons_self, rfl⟩
  | brFalse t | brTrue t =>
    cases ht
    simp only [instruction, testBranch, bind_ok, pure_ok] at h
    obtain ⟨r, _, -, _, _, -, rfl, -⟩ := h
    exact ⟨_, List.mem_cons_self, rfl⟩
  | brIf c t =>
    cases ht
    simp only [instruction, compareBranch, bind_ok, pure_ok] at h
    obtain ⟨x, _, -, y, _, -, _, _, -, _, _, -, rfl, -⟩ := h
    refine ⟨_, List.mem_cons_of_mem _ List.mem_cons_self, ?_⟩
    cases c <;> rfl
  | _ => cases ht

namespace MethodDef.Compilation

variable {m : MethodDef} {options : Options} {session : Session}

/-- The lines of the instruction at a position, if it was reached. -/
def pieceAt (c : m.Compilation options session) (i : Nat) : List Line :=
  (c.visit? i).elim [] Visit.lines

/-- The labels of a method: its own, and those of the instructions reached that are targets. -/
def Labels (c : m.Compilation options session) (label : String) : Prop :=
  label = c.route.site.label ∨ ∃ i instruction, m.code[i]? = some instruction ∧
    (c.visit? i).isSome = true ∧ instruction.offset ∈ targets m.code ∧
    label = c.route.site.branchLabel instruction.offset

/-- The piece of an instruction defines the label, on its first line that is not a remark. That is the
first operation of the code, or an operation without effect where there is no code. -/
def Bears (c : m.Compilation options session) (i : Nat) (label : String) : Prop :=
  ∃ v instruction, ∃ σ : Session, ∃ after code remark first rest, c.visit? i = some v ∧
    m.code[i]? = some instruction ∧
    Lower.instruction c.route.site instruction { σ with stack := ⟨c.frame.stop, v.arrival⟩ } =
      .ok (code, after) ∧
    v.lines = remark ++ first :: rest ∧ (∀ l ∈ remark, l.isComment = true) ∧
    (code = [] ∧ first = .bare label ∧ rest = [] ∨ ∃ opcode operands,
      code = .ins opcode operands :: rest ∧ first = .op (some label) opcode operands)

/-- The text of a method, read row by row, has the control flow of its body. -/
structure Stitched (c : m.Compilation options session) : Prop where
  rows : Text.rows (Line.render c.lines) = c.lines.map Line.row ++ [⟨none, none, false⟩]
  order : c.lines = c.head ++ (List.range m.code.length).flatMap c.pieceAt ++ [.blank]
  once : ∀ label, c.Labels label →
    (Text.rows (Line.render c.lines)).countP (·.label? == some label) = 1
  only : ∀ r ∈ Text.rows (Line.render c.lines), ∀ label, r.label? = some label → c.Labels label
  /-- A row that branches does so for an instruction, and its label is that of the target. -/
  branch : ∀ r ∈ Text.rows (Line.render c.lines), ∀ label, r.branch? = some label →
    ∃ i instruction t j target, r ∈ (c.pieceAt i).map Line.row ∧ m.code[i]? = some instruction ∧
      instruction.op.branchTarget? = some t ∧ m.code[j]? = some target ∧ target.offset = t ∧
      label = c.route.site.branchLabel t ∧ c.Bears j label
  branches : ∀ i instruction t, m.code[i]? = some instruction → (c.visit? i).isSome = true →
    instruction.op.branchTarget? = some t →
    ∃ l ∈ c.pieceAt i, l.branch? = some (c.route.site.branchLabel t)
  /-- The piece of the next instruction follows that of one that does not jump or return. -/
  falls : ∀ i instruction, m.code[i]? = some instruction → (c.visit? i).isSome = true →
    (instruction.op.flow = .next ∨ ∃ t, instruction.op.flow = .branch t) → i + 1 < m.code.length →
    (c.visit? (i + 1)).isSome = true ∧ ∃ after,
      c.lines = (c.head ++ (List.range i).flatMap c.pieceAt) ++ c.pieceAt i ++ c.pieceAt (i + 1) ++ after

theorem pieceAt_of_visit {c : m.Compilation options session} {i : Nat} {v : Visit}
    (hv : c.visit? i = some v) : c.pieceAt i = v.lines := by
  rw [pieceAt, hv]
  rfl

theorem flatMap_take (c : m.Compilation options session) (i : Nat) :
    (c.walk.stops.take i).flatMap Stop.lines = (List.range i).flatMap c.pieceAt := by
  induction i with
  | zero => rfl
  | succ i ih =>
    have hlast : c.walk.stops[i]?.toList.flatMap Stop.lines = c.pieceAt i := by
      rw [pieceAt, visit?]
      cases c.walk.stops[i]? with
      | none => rfl
      | some s =>
        obtain ⟨instruction, visit⟩ := s
        cases visit <;> simp [Stop.lines]
    rw [List.take_add_one, List.flatMap_append, ih, List.range_succ, List.flatMap_append, hlast]
    simp

theorem lines_eq_pieces (c : m.Compilation options session) :
    c.lines = c.head ++ (List.range m.code.length).flatMap c.pieceAt ++ [.blank] := by
  rw [← flatMap_take, ← c.covers_operands.length_eq, List.take_length]
  rfl

/-- The head of a method: its label, and moves that have none. -/
theorem head_cons (c : m.Compilation options session) : ∃ rest,
    c.head = .note (some c.route.site.label) m.signature :: rest ∧
      ∀ l ∈ rest, l.label? = none ∧ l.branch? = none ∧ l.Tidy := by
  obtain ⟨o, moves, -, hmoves, hhead⟩ := prologue_ok c.head_eq
  refine ⟨saveLines o ++ moves, hhead, List.forall_mem_append.mpr ⟨fun l hl => ?_, fun l hl => ?_⟩⟩
  · cases o with
    | none => cases hl
    | some r =>
      obtain rfl := List.mem_singleton.mp hl
      have hname : Text.Inline "rJ" := by decide
      exact ⟨rfl, rfl, nofun, nofun, by simp [hname], nofun⟩
  · have hworks : l.Works 0 false none := hmoves.works (fun _ _ => Nat.zero_le _) l hl
    obtain ⟨p, -, x, y, -, -, rfl⟩ := hmoves.mem hl
    exact ⟨rfl, rfl, hworks.tidy nofun⟩

theorem tidy_visit (c : m.Compilation options session) (h : ∀ n ∈ m.names, Text.Inline n) {i : Nat}
    {v : Visit} (hv : c.visit? i = some v) : ∀ l ∈ v.lines, l.Tidy := by
  obtain ⟨instruction, σ, after, code, hi, hs, -, hcode, hlines⟩ := c.visit_code hv
  have hisCode := Lower.instruction_isCode c.laid rfl hs hcode
  obtain ⟨body, remark, rfl, hbody, hremark, -⟩ := Lower.instruction_works c.laid rfl hs hcode
  have hsymbol : ∀ t, IsSymbol (c.route.site.branchLabel t) :=
    Site.isSymbol_branchLabel (isSymbol_mangle m.name)
  have htext : Text.Inline instruction.text := by
    refine Instruction.inline_text.mpr fun n hn => h n ?_
    exact List.mem_append_right _ (List.mem_flatMap.mpr ⟨instruction, List.mem_of_getElem? hi, hn⟩)
  rw [hlines]
  refine Line.tidy_piece hisCode (List.forall_mem_append.mpr ⟨fun l hl => ?_, fun l hl => ?_⟩)
    (fun s hs => ?_) htext
  · refine (hbody l hl).tidy fun s hs => ?_
    obtain ⟨t, -, rfl⟩ := Option.map_eq_some_iff.mp hs
    exact hsymbol t
  · rw [hremark l hl]
    exact (by decide : Text.Inline "stack not empty !!")
  · unfold Route.label? at hs
    split at hs
    · cases hs
      exact hsymbol _
    · cases hs

theorem tidy_lines (c : m.Compilation options session) (h : ∀ n ∈ m.names, Text.Inline n) :
    ∀ l ∈ c.lines, l.Tidy := by
  intro l hl
  obtain ⟨rest, hhead, hrest⟩ := c.head_cons
  rcases mem_lines hl with hl | ⟨i, v, hv, hl⟩ | rfl
  · rw [hhead] at hl
    rcases List.mem_cons.mp hl with rfl | hl
    · refine ⟨fun s hs => ?_, inline_signature h⟩
      cases hs
      exact isSymbol_mangle m.name
    · exact (hrest l hl).2.2
  · exact c.tidy_visit h hv l hl
  · trivial

section

variable {c : m.Compilation options session} {i : Nat} {v : Visit} {instruction : Instruction}

theorem label?_of_mem_target (ht : instruction.offset ∈ targets m.code) :
    c.route.label? instruction.offset = some (c.route.site.branchLabel instruction.offset) :=
  if_pos (List.contains_iff_mem.mpr ht)

/-- The label of a method is defined at its head, and nowhere else. -/
theorem defs_label (c : m.Compilation options session) :
    Line.defs c.route.site.label c.lines = 1 := by
  obtain ⟨rest, hhead, hrest⟩ := c.head_cons
  have hzero : Line.defs c.route.site.label (rest ++ (c.walk.lines ++ [.blank])) = 0 := by
    refine Line.defs_eq_zero fun l hl he => ?_
    rcases List.mem_append.mp hl with hl | hl
    · cases (hrest l hl).1.symm.trans he
    rcases List.mem_append.mp hl with hl | hl
    · obtain ⟨s, hs, hl⟩ := List.mem_flatMap.mp hl
      obtain ⟨i, hi⟩ := List.mem_iff_getElem?.mp hs
      obtain ⟨v, hv, hl⟩ := visit_of_mem_lines hi hl
      obtain ⟨instruction, hstop⟩ := visit?_eq_some.mp hv
      rcases c.coded.label_of_mem hstop hl with hn | ⟨-, hn⟩ <;> rw [he] at hn
      · cases hn
      · exact c.route.site.branchLabel_ne _ (Option.some.inj hn).symm
    · obtain rfl := List.mem_singleton.mp hl
      cases he
  rw [lines, hhead, List.append_assoc, List.cons_append, Line.defs_cons_self rfl, hzero]

/-- The label of a target that was reached is defined in its piece, and nowhere else. -/
theorem defs_branchLabel (hoffsets : (m.code.map Instruction.offset).Nodup)
    (hi : m.code[i]? = some instruction) (hv : c.visit? i = some v)
    (ht : instruction.offset ∈ targets m.code) :
    Line.defs (c.route.site.branchLabel instruction.offset) c.lines = 1 := by
  obtain ⟨instruction', hstop⟩ := visit?_eq_some.mp hv
  obtain ⟨hi', code, hcode, hlines⟩ := c.coded i instruction' v hstop
  cases hi.symm.trans hi'
  rw [label?_of_mem_target ht, piece_eq hcode.plain] at hlines
  have hpiece : Line.defs (c.route.site.branchLabel instruction.offset) v.lines = 1 := by
    have hremark : Line.defs (c.route.site.branchLabel instruction.offset)
        (if options.annotate then [.comment instruction.text] else []) = 0 := by
      cases options.annotate <;> rfl
    rw [hlines, Line.defs_append, hremark, Line.labelled?, Line.defs_labelled hcode]
  have hhead : Line.defs (c.route.site.branchLabel instruction.offset) c.head = 0 := by
    obtain ⟨rest, hhead, hrest⟩ := c.head_cons
    rw [hhead]
    refine Line.defs_eq_zero fun l hl he => ?_
    rcases List.mem_cons.mp hl with rfl | hl
    · exact c.route.site.branchLabel_ne _ (Option.some.inj he).symm
    · cases (hrest l hl).1.symm.trans he
  have hbefore : Line.defs (c.route.site.branchLabel instruction.offset)
      ((c.walk.stops.take i).flatMap Stop.lines) = 0 := by
    refine Line.defs_eq_zero fun l hl => ?_
    obtain ⟨j, w, hj, hw, hl⟩ := mem_lines_take hl
    exact c.coded.label_ne_of_ne hoffsets hi hw (by omega) hl
  have hafter : Line.defs (c.route.site.branchLabel instruction.offset)
      ((c.walk.stops.drop (i + 1)).flatMap Stop.lines) = 0 := by
    refine Line.defs_eq_zero fun l hl => ?_
    obtain ⟨j, w, hj, hw, hl⟩ := mem_lines_drop hl
    exact c.coded.label_ne_of_ne hoffsets hi hw (by omega) hl
  rw [lines_eq hv]
  simp only [Line.defs_append, hhead, hbefore, hpiece, hafter]
  rfl

theorem bears_of_visit (hi : m.code[i]? = some instruction) (hv : c.visit? i = some v)
    (ht : instruction.offset ∈ targets m.code) :
    c.Bears i (c.route.site.branchLabel instruction.offset) := by
  obtain ⟨instruction', σ, after, code, hi', hs, -, hcode, hlines⟩ := c.visit_code hv
  cases hi.symm.trans hi'
  have hisCode := Lower.instruction_isCode c.laid rfl hs hcode
  rw [label?_of_mem_target ht, piece_eq hisCode.plain] at hlines
  have hremark : ∀ l ∈ if options.annotate then [Line.comment instruction.text] else [],
      l.isComment = true := by
    intro l hl
    split at hl
    · obtain rfl := List.mem_singleton.mp hl
      rfl
    · cases hl
  rcases hisCode.starts with rfl | ⟨opcode, operands, rest, rfl⟩
  · exact ⟨v, instruction, σ, after, [], _, _, [], hv, hi, hcode, hlines, hremark,
      .inl ⟨rfl, rfl, rfl⟩⟩
  · exact ⟨v, instruction, σ, after, _, _, _, rest, hv, hi, hcode, hlines, hremark,
      .inr ⟨opcode, operands, rfl, rfl⟩⟩

/-- Where a branch that was reached goes to was reached as well. -/
theorem visit_target (hi : m.code[i]? = some instruction) (hv : c.visit? i = some v) {t : UInt32}
    (ht : instruction.op.branchTarget? = some t) : ∃ j target w, m.code[j]? = some target ∧
      target.offset = t ∧ c.visit? j = some w := by
  have hflow := Op.branchTarget?_eq_some.mp ht
  obtain ⟨j, hj⟩ := c.target t (mem_targets hi hflow)
  obtain ⟨target, hj', rfl⟩ := position?_eq_some (position_eq_ok hj)
  obtain ⟨-, _, _, _, -, -, -, hnext⟩ := c.covers_operands.visit_spec hv
  obtain ⟨w, hw, -⟩ := hnext j (edge_of_position hi hflow hj) (List.getElem?_eq_some_iff.mp hj').1
  exact ⟨j, target, w, hj', rfl, hw⟩

/-- A line of a piece branches only where the instruction does. -/
theorem branch_of_mem (hv : c.visit? i = some v) {l : Line} (hl : l ∈ v.lines) {label : String}
    (hb : l.branch? = some label) : ∃ instruction t, m.code[i]? = some instruction ∧
      instruction.op.branchTarget? = some t ∧ label = c.route.site.branchLabel t := by
  obtain ⟨instruction, σ, after, code, hi, hs, -, hcode, hlines⟩ := c.visit_code hv
  have hisCode := Lower.instruction_isCode c.laid rfl hs hcode
  obtain ⟨body, remark, rfl, hbody, hremark, -⟩ := Lower.instruction_works c.laid rfl hs hcode
  rw [hlines] at hl
  rcases Line.mem_piece hisCode hl with ⟨text, rfl⟩ | ⟨name, rfl⟩ | ⟨l', hl', he⟩
  · cases hb
  · cases hb
  rw [← Line.branch?_unlabel, he, Line.branch?_unlabel] at hb
  rcases List.mem_append.mp hl' with hl' | hl'
  · obtain ⟨t, ht, rfl⟩ := Option.map_eq_some_iff.mp ((hbody l' hl').branch label hb)
    exact ⟨instruction, t, hi, ht, rfl⟩
  · rw [hremark l' hl'] at hb
    cases hb

end

theorem defs_of_labels (c : m.Compilation options session)
    (hoffsets : (m.code.map Instruction.offset).Nodup) {label : String} (h : c.Labels label) :
    Line.defs label c.lines = 1 := by
  rcases h with rfl | ⟨i, instruction, hi, hv, ht, rfl⟩
  · exact c.defs_label
  · obtain ⟨v, hv⟩ := Option.isSome_iff_exists.mp hv
    exact defs_branchLabel hoffsets hi hv ht

theorem labels_of_mem {c : m.Compilation options session} {l : Line} (hl : l ∈ c.lines)
    {label : String} (he : l.label? = some label) : c.Labels label := by
  rcases mem_lines hl with hl | ⟨i, v, hv, hl⟩ | rfl
  · obtain ⟨rest, hhead, hrest⟩ := c.head_cons
    rw [hhead] at hl
    rcases List.mem_cons.mp hl with rfl | hl
    · exact .inl (Option.some.inj he).symm
    · cases (hrest l hl).1.symm.trans he
  · obtain ⟨instruction, hstop⟩ := visit?_eq_some.mp hv
    rcases c.coded.label_of_mem hstop hl with hn | ⟨ht, hn⟩ <;> rw [he] at hn
    · cases hn
    · exact .inr ⟨i, instruction, (c.coded i instruction v hstop).1, by rw [hv]; rfl, ht,
        Option.some.inj hn⟩
  · cases he

theorem branch_of_mem_lines {c : m.Compilation options session} {l : Line} (hl : l ∈ c.lines)
    {label : String} (hb : l.branch? = some label) : ∃ i instruction t j target,
      l ∈ c.pieceAt i ∧ m.code[i]? = some instruction ∧ instruction.op.branchTarget? = some t ∧
      m.code[j]? = some target ∧ target.offset = t ∧ label = c.route.site.branchLabel t ∧
      c.Bears j label := by
  rcases mem_lines hl with hl | ⟨i, v, hv, hl⟩ | rfl
  · obtain ⟨rest, hhead, hrest⟩ := c.head_cons
    rw [hhead] at hl
    rcases List.mem_cons.mp hl with rfl | hl
    · cases hb
    · cases (hrest l hl).2.1.symm.trans hb
  · obtain ⟨instruction, t, hi, ht, rfl⟩ := branch_of_mem hv hl hb
    obtain ⟨j, target, w, hj, rfl, hw⟩ := visit_target hi hv ht
    have hmem := mem_targets hi (Op.branchTarget?_eq_some.mp ht)
    exact ⟨i, instruction, target.offset, j, target, pieceAt_of_visit hv ▸ hl, hi, ht, hj, rfl, rfl,
      bears_of_visit hj hw hmem⟩
  · cases hb

/-- The piece of an instruction that does not jump or return is followed by that of the next one. -/
theorem falls_through (c : m.Compilation options session) {i : Nat} {instruction : Instruction}
    (hi : m.code[i]? = some instruction) (hv : (c.visit? i).isSome = true)
    (hflow : instruction.op.flow = .next ∨ ∃ t, instruction.op.flow = .branch t)
    (hlt : i + 1 < m.code.length) : (c.visit? (i + 1)).isSome = true ∧ ∃ after,
      c.lines = (c.head ++ (List.range i).flatMap c.pieceAt) ++ c.pieceAt i ++ c.pieceAt (i + 1) ++
        after := by
  obtain ⟨v, hv⟩ := Option.isSome_iff_exists.mp hv
  obtain ⟨-, _, _, _, -, -, -, hnext⟩ := c.covers_operands.visit_spec hv
  obtain ⟨w, hw, -⟩ := hnext (i + 1) (edge_succ hi hflow c.target) hlt
  refine ⟨by rw [hw]; rfl, (c.walk.stops.drop (i + 1 + 1)).flatMap Stop.lines ++ [.blank], ?_⟩
  rw [lines_eq hw, flatMap_take, List.range_succ, List.flatMap_append, pieceAt_of_visit hw]
  simp only [List.flatMap_cons, List.flatMap_nil, List.append_nil, List.append_assoc]

theorem stitched (c : m.Compilation options session)
    (hoffsets : (m.code.map Instruction.offset).Nodup) (hnames : ∀ n ∈ m.names, Text.Inline n) :
    c.Stitched := by
  have htidy := c.tidy_lines hnames
  have hrows := Line.rows_render htidy
  -- The row after the last line end says nothing.
  have hmem : ∀ r ∈ Text.rows (Line.render c.lines), r = ⟨none, none, false⟩ ∨
      ∃ l ∈ c.lines, r = l.row := by
    intro r hr
    rw [hrows] at hr
    rcases List.mem_append.mp hr with hr | hr
    · obtain ⟨l, hl, rfl⟩ := List.mem_map.mp hr
      exact .inr ⟨l, hl, rfl⟩
    · exact .inl (List.mem_singleton.mp hr)
  refine ⟨hrows, c.lines_eq_pieces, fun label h => ?_, fun r hr label h => ?_, fun r hr label h => ?_,
    fun i instruction t hi hv ht => ?_, fun i instruction => c.falls_through⟩
  · rw [Line.countP_rows htidy]
    exact c.defs_of_labels hoffsets h
  · rcases hmem r hr with rfl | ⟨l, hl, rfl⟩
    · cases h
    · exact labels_of_mem hl h
  · rcases hmem r hr with rfl | ⟨l, hl, rfl⟩
    · cases h
    · obtain ⟨i, instruction, t, j, target, hl, hspec⟩ := branch_of_mem_lines hl h
      exact ⟨i, instruction, t, j, target, List.mem_map_of_mem hl, hspec⟩
  · obtain ⟨v, hv⟩ := Option.isSome_iff_exists.mp hv
    obtain ⟨instruction', σ, after, code, hi', hs, -, hcode, hlines⟩ := c.visit_code hv
    cases hi.symm.trans hi'
    obtain ⟨l, hl, hb⟩ := Lower.instruction_branches hcode ht
    have hisCode := Lower.instruction_isCode c.laid rfl hs hcode
    obtain ⟨l', hl', he⟩ := Line.exists_mem_piece hisCode options.annotate
      (c.route.label? instruction.offset) instruction hl
    refine ⟨l', pieceAt_of_visit hv ▸ hlines ▸ hl', ?_⟩
    rw [← Line.branch?_unlabel, he, Line.branch?_unlabel, hb]

end MethodDef.Compilation

namespace MethodDef

theorem control_flow_stitched (m : MethodDef) (options : Options) (session : Session)
    (hoffsets : (m.code.map Instruction.offset).Nodup) (hnames : ∀ n ∈ m.names, Text.Inline n)
    {lines : List Line} {session' : Session} (h : m.compile options session = .ok (lines, session')) :
    ∃ c : m.Compilation options session, c.lines = lines ∧ c.Stitched := by
  obtain ⟨c, hlines, -⟩ := compile_ok.mp h
  exact ⟨c, hlines, c.stitched hoffsets hnames⟩

/-- A method that counts its argument down. It goes back to an instruction that has no code. -/
def countDown : MethodDef where
  name := "count down"
  params := [.primitive .int64]
  ret := .void
  body := some (number [.nop, .load (.arg 0), .brFalse 8, .load (.arg 0), .push (.int64 1), .arith .sub,
    .store (.arg 0), .br 0, .ret])

theorem control_flow_stitched_countDown : (countDown.code.map Instruction.offset).Nodup ∧
    (∀ n ∈ countDown.names, Text.Inline n) ∧
    ∃ c : countDown.Compilation {} (.ofModule ⟨"module", []⟩), c.Stitched := by
  have hoffsets : (countDown.code.map Instruction.offset).Nodup := by decide
  have hnames : ∀ n ∈ countDown.names, Text.Inline n := by decide
  have hok : (countDown.compile {} (.ofModule ⟨"module", []⟩)).toBool = true := by decide +kernel
  obtain ⟨result, h⟩ := exists_of_toBool hok
  obtain ⟨c, -, hc⟩ := control_flow_stitched countDown {} _ hoffsets hnames h
  exact ⟨hoffsets, hnames, c, hc⟩

end MethodDef

end CilMmix
