import Mathlib.Data.Nat.Find
import Mathlib.Logic.Relation
import CilMmix.Proofs.Method.Accrual
import CilMmix.Proofs.Method.Coverage
import CilMmix.Proofs.Method.Stitching

/-! How control leaves the block of a method. Jumps and branches stay inside the body. The step to the next
instruction is not looked at, so it leads past the last one where that neither jumps nor returns; in all
other methods the last operation of the block is one that goes elsewhere. -/

namespace CilMmix

theorem Op.departs_eq_false {op : Op} :
    op.departs = false ↔ op.flow = .next ∨ ∃ t, op.flow = .branch t := by
  cases op <;> simp [departs, flow]

namespace Line

/-- Lines that the machine executes. -/
def isOperation : Line → Bool
  | op _ _ _ | note _ _ => true
  | comment _ | blank | verbatim _ => false

/-- Operations after which control does not come to the next line: a jump, a return, and a halt. -/
def departs : Line → Bool
  | op _ .jmp _ | op _ .pop _ => true
  | op _ .trap operands => operands = [.imm 0, .sym "Halt", .imm 0]
  | _ => false

/-- The last operation goes elsewhere, so that control does not run on past the lines. -/
def closed (lines : List Line) : Bool := (lines.filter isOperation).getLast?.any departs

@[simp] theorem isOperation_unlabel (l : Line) : l.unlabel.isOperation = l.isOperation := by
  cases l <;> rfl

@[simp] theorem departs_unlabel (l : Line) : l.unlabel.departs = l.departs := by
  cases l with
  | op label code operands => cases code <;> rfl
  | note | comment | blank | verbatim => rfl

theorem Fits.departs {n : Nat} {l : Line} (h : l.Fits n) : l.departs = false := by
  obtain ⟨code, operands, rfl, hsteps, -⟩ := h
  cases code <;> first | rfl | cases hsteps

variable {before lines : List Line}

theorem closed_append_of_quiet (h : ∀ l ∈ lines, l.isOperation = false) :
    closed (before ++ lines) = closed before := by
  have hnone : lines.filter isOperation = [] :=
    List.filter_eq_nil_iff.mpr fun l hl => by rw [h l hl]; exact Bool.false_ne_true
  rw [closed, closed, List.filter_append, hnone, List.append_nil]

theorem closed_append_of_operation (h : ∃ l ∈ lines, l.isOperation = true) :
    closed (before ++ lines) = closed lines := by
  have hne : lines.filter isOperation ≠ [] := by
    obtain ⟨l, hl, hop⟩ := h
    exact List.ne_nil_of_mem (List.mem_filter.mpr ⟨hl, hop⟩)
  rw [closed, closed, List.filter_append, List.getLast?_append_of_ne_nil _ hne]

theorem closed_eq_false (h : ∀ l ∈ lines, l.departs = false) : closed lines = false := by
  rw [closed]
  cases hlast : (lines.filter isOperation).getLast? with
  | none => rfl
  | some l => exact h l (List.mem_filter.mp (List.mem_of_getLast? hlast)).1

theorem closed_append_singleton {l : Line} (hl : l.departs = true) (hop : l.isOperation = true) :
    closed (lines ++ [l]) = true := by
  rw [closed_append_of_operation ⟨l, List.mem_singleton_self l, hop⟩, closed]
  simp [hop, hl]

/-- Labels do not matter. -/
theorem closed_unlabel (lines : List Line) : closed (lines.map unlabel) = closed lines := by
  have hfilter : (lines.map unlabel).filter isOperation = (lines.filter isOperation).map unlabel := by
    rw [List.filter_map]
    congr 1
    exact List.filter_congr fun l _ => isOperation_unlabel l
  rw [closed, closed, hfilter, List.getLast?_map]
  cases (lines.filter isOperation).getLast? with
  | none => rfl
  | some l => exact departs_unlabel l

theorem closed_piece (hcode : IsCode lines) (hclosed : closed lines = true) (annotate : Bool)
    (label : Option String) (i : Instruction) : closed (piece annotate label i lines) = true := by
  have hlabelled : closed (labelled? label lines) = true ∧
      ∃ l ∈ labelled? label lines, l.isOperation = true := by
    rcases hcode.starts with rfl | ⟨code, operands, rest, rfl⟩
    · cases hclosed
    · cases label with
      | none => exact ⟨hclosed, _, List.mem_cons_self, rfl⟩
      | some label =>
        refine ⟨?_, _, List.mem_cons_self, rfl⟩
        rw [← closed_unlabel] at hclosed ⊢
        exact hclosed
  rw [piece_eq hcode.plain, closed_append_of_operation hlabelled.2]
  exact hlabelled.1

end Line

namespace Lower

variable {site : Site} {s t : LowerState} {code : List Line}

theorem giveBack_closed {f : Frame} (h : giveBack f s = .ok (code, t)) :
    Line.closed code = true ∧ ∃ l ∈ code, l.isOperation = true := by
  obtain ⟨first, others, e, rest, -, -, -, -, rfl, -, -⟩ := giveBack_ok h
  exact ⟨Line.closed_append_singleton rfl rfl, _, List.mem_append_right _ (List.mem_singleton_self _), rfl⟩

theorem stopLines_closed (halts : Bool) :
    Line.closed (stopLines halts) = true ∧ ∃ l ∈ stopLines halts, l.isOperation = true := by
  cases halts with
  | true => exact ⟨rfl, _, List.mem_cons_self, rfl⟩
  | false => exact ⟨rfl, _, List.mem_cons_self, rfl⟩

/-- The code of a jump or return ends by going elsewhere. -/
theorem closed_of_departs {i : Instruction} (hi : i.op.departs = true)
    (h : instruction site i s = .ok (code, t)) : Line.closed code = true := by
  obtain ⟨offset, op⟩ := i
  cases op with
  | br target =>
    cases h
    rfl
  | ret =>
    obtain ⟨o, leave, remark, -, rfl, hremark, hleave⟩ := ret_ok h
    have hquiet : ∀ l ∈ remark, l.isOperation = false := by
      intro l hl
      rw [hremark l hl]
      rfl
    have hclosed : Line.closed leave = true ∧ ∃ l ∈ leave, l.isOperation = true := by
      rcases hleave with ⟨-, rfl, -⟩ | ⟨-, hgive⟩
      · exact stopLines_closed site.halts
      · exact giveBack_closed hgive
    rw [Line.closed_append_of_quiet hquiet, Line.closed_append_of_operation hclosed.2]
    exact hclosed.1
  | _ => cases hi

end Lower

/-- Positions on the paths of control from the first instruction on. -/
abbrev OnPath (body : List Instruction) : Nat → Prop := Relation.ReflTransGen (Control body) 0

/-- The last instruction is on a path and does not jump or return. -/
def RunsOff (body : List Instruction) : Prop :=
  ∃ last, body.getLast? = some last ∧ OnPath body (body.length - 1) ∧
    (last.op.flow = .next ∨ ∃ t, last.op.flow = .branch t)

section

variable {body : List Instruction} {i j : Nat}

theorem Control.lt (h : Control body i j) : i < body.length := by
  cases h with
  | fall hi _ | target hi _ _ => exact (List.getElem?_eq_some_iff.mp hi).1

theorem Control.le (h : Control body i j) : j ≤ body.length := by
  cases h with
  | fall hi _ => exact (List.getElem?_eq_some_iff.mp hi).1
  | target _ _ hj =>
    obtain ⟨⟨_, hj, -⟩, -⟩ := hj
    exact Nat.le_of_lt (List.getElem?_eq_some_iff.mp hj).1

theorem OnPath.le (h : OnPath body j) : j ≤ body.length := by
  cases h with
  | refl => exact Nat.zero_le _
  | tail _ hstep => exact hstep.le

/-- A way out of the body is the step from its last instruction to the next one. -/
theorem onPath_length_iff (hne : body ≠ []) : OnPath body body.length ↔ RunsOff body := by
  have hpos := List.length_pos_iff.mpr hne
  have hlast : body[body.length - 1]? = body.getLast? := List.getLast?_eq_getElem?.symm
  constructor
  · intro h
    rcases Relation.ReflTransGen.cases_tail h with hzero | ⟨i, hpath, hstep⟩
    · omega
    · generalize hn : body.length = n at hstep
      cases hstep with
      | @fall last hi hflow =>
        obtain rfl : i = body.length - 1 := by omega
        exact ⟨last, hlast.symm.trans hi, hpath, hflow⟩
      | target _ _ hj =>
        obtain ⟨⟨_, hj, -⟩, -⟩ := hj
        have hlt := (List.getElem?_eq_some_iff.mp hj).1
        omega
  · rintro ⟨last, hget, hpath, hflow⟩
    have hstep : Control body (body.length - 1) (body.length - 1 + 1) :=
      .fall (hlast.trans hget) hflow
    rw [Nat.sub_add_cancel hpos] at hstep
    exact hpath.tail hstep

theorem onPath_iff_reachable (h : ∀ t ∈ targets body, ∃ j, position body t = .ok j)
    (hj : j < body.length) : OnPath body j ↔ Reachable body j := by
  constructor
  · intro hpath
    induction hpath with
    | refl => exact .entry hj
    | tail _ hstep ih => exact .step (ih hstep.lt) ((edge_iff h).mpr hstep) hj
  · intro hreach
    clear hj
    induction hreach with
    | entry => exact .refl
    | step _ hedge _ ih => exact ih.tail ((edge_iff h).mp hedge)

end

namespace MethodDef.Compilation

variable {M : Module} {m : MethodDef} {options : Options} {session : Session}
  {c : m.Compilation options session} {i : Nat} {instruction : Instruction} {v : Visit}

theorem head_departs (c : m.Compilation options session) :
    ∀ l ∈ c.head, l.departs = false := by
  intro l hl
  rcases c.head_fits l hl with rfl | hfits
  · rfl
  · exact hfits.departs

/-- The piece of an instruction that goes on to the next one. -/
theorem departs_of_visit (hs : session.Reached M) (hi : m.code[i]? = some instruction)
    (hv : c.visit? i = some v) (hop : instruction.op.departs = false) :
    ∀ l ∈ v.lines, l.departs = false := by
  obtain ⟨-, instruction', σ, after, hi', hσ, hvisit, -⟩ := (c.covers_stacked hs).visit_spec hv
  cases hi.symm.trans hi'
  obtain ⟨code, hcode, hlines⟩ := Route.visit_ok.mp hvisit
  obtain ⟨-, -, n, -, hfits⟩ := Lower.yields_instruction c.route.site instruction hop _ hσ.sound
    code after hcode
  have hisCode : Line.IsCode code := by
    refine Line.isCode_of_ins fun l hl => ?_
    obtain ⟨opcode, operands, hins, -⟩ := hfits l hl
    exact ⟨opcode, operands, hins⟩
  intro l hl
  rw [hlines] at hl
  rcases Line.mem_piece hisCode hl with ⟨text, rfl⟩ | ⟨name, rfl⟩ | ⟨l', hl', he⟩
  · rfl
  · rfl
  · rw [← Line.departs_unlabel, he, Line.departs_unlabel]
    exact (hfits l' hl').departs

theorem closed_of_visit (hi : m.code[i]? = some instruction) (hv : c.visit? i = some v)
    (hop : instruction.op.departs = true) :
    Line.closed v.lines = true ∧ ∃ l ∈ v.lines, l.isOperation = true := by
  obtain ⟨instruction', σ, after, code, hi', hstacked, -, hcode, hlines⟩ := c.visit_code hv
  cases hi.symm.trans hi'
  have hisCode := Lower.instruction_isCode c.laid rfl hstacked hcode
  have hclosed := Line.closed_piece hisCode (Lower.closed_of_departs hop hcode) options.annotate
    (c.route.label? instruction.offset) instruction
  rw [← hlines] at hclosed
  refine ⟨hclosed, ?_⟩
  by_contra hno
  have hquiet : ∀ l ∈ v.lines, l.isOperation = false :=
    fun l hl => Bool.eq_false_iff.mpr fun hl' => hno ⟨l, hl, hl'⟩
  have hempty : Line.closed ([] ++ v.lines) = false := Line.closed_append_of_quiet hquiet
  cases hclosed.symm.trans hempty

/-- Lines of an instruction that are no operations have no label, so control comes to it from the
instruction before it. -/
theorem entered_of_quiet (hs : session.Reached M) (hv : c.visit? i = some v)
    (hquiet : ∀ l ∈ v.lines, l.isOperation = false) :
    i = 0 ∨ ∃ j before, i = j + 1 ∧ m.code[j]? = some before ∧ before.op.departs = false ∧
      (c.visit? j).isSome = true := by
  have hreach := (c.visited_iff_reachable hs i).mp (by rw [hv]; rfl)
  cases hreach with
  | entry => exact .inl rfl
  | @step j _ hj hedge _ =>
    have hcontrol := (edge_iff c.target).mp hedge
    have hvj := (c.visited_iff_reachable hs j).mpr hj
    cases hcontrol with
    | @fall before hbefore hflow =>
      exact .inr ⟨j, before, rfl, hbefore, Op.departs_eq_false.mpr hflow, hvj⟩
    | target hbranch ht hresolves =>
      obtain ⟨⟨instruction, hi, rfl⟩, -⟩ := hresolves
      have hmem := mem_targets hbranch (Op.branchTarget?_eq_some.mp ht)
      obtain ⟨v', instruction', σ, after, code, remark, first, rest, hv', -, -, hlines, -, hfirst⟩ :=
        bears_of_visit hi hv hmem
      cases hv.symm.trans hv'
      have hop : first.isOperation = true := by
        rcases hfirst with ⟨-, rfl, -⟩ | ⟨_, _, -, rfl⟩ <;> rfl
      have hno := hquiet first (by rw [hlines]; exact List.mem_append_right _ List.mem_cons_self)
      cases hno.symm.trans hop

/-- Up to an instruction that control comes to from the one before it, the lines go on. -/
theorem open_before (hs : session.Reached M) : ∀ i,
    (i = 0 ∨ ∃ j before, i = j + 1 ∧ m.code[j]? = some before ∧ before.op.departs = false ∧
      (c.visit? j).isSome = true) →
    Line.closed (c.head ++ (List.range i).flatMap c.pieceAt) = false := by
  intro i
  induction i with
  | zero =>
    intro _
    simpa using Line.closed_eq_false c.head_departs
  | succ i ih =>
    rintro (h | ⟨j, before, hij, hbefore, hop, hvisited⟩)
    · cases h
    cases hij
    obtain ⟨v, hv⟩ := Option.isSome_iff_exists.mp hvisited
    rw [List.range_succ, List.flatMap_append, ← List.append_assoc, List.flatMap_singleton,
      pieceAt_of_visit hv]
    by_cases hquiet : ∀ l ∈ v.lines, l.isOperation = false
    · rw [Line.closed_append_of_quiet hquiet]
      exact ih (entered_of_quiet hs hv hquiet)
    · push Not at hquiet
      obtain ⟨l, hl, hlop⟩ := hquiet
      rw [Line.closed_append_of_operation ⟨l, hl, by simpa using hlop⟩]
      exact Line.closed_eq_false (departs_of_visit hs hbefore hv hop)

/-- Of the instructions that were reached one is the last. -/
theorem exists_last_visit (c : m.Compilation options session) (hne : m.code ≠ []) :
    ∃ i v, c.visit? i = some v ∧ ∀ j, i < j → c.visit? j = none := by
  have hpos := List.length_pos_iff.mpr hne
  obtain ⟨v, hv, -⟩ := c.covers_operands.visit?_zero hpos
  have hbound : ∀ j, (c.visit? j).isSome = true → j ≤ m.code.length := by
    intro j hj
    obtain ⟨w, hw⟩ := Option.isSome_iff_exists.mp hj
    obtain ⟨instruction, _, _, _, hi, -⟩ := c.visit_code hw
    exact Nat.le_of_lt (List.getElem?_eq_some_iff.mp hi).1
  have hzero : (c.visit? 0).isSome = true := by
    rw [hv]
    rfl
  obtain ⟨w, hw⟩ := Option.isSome_iff_exists.mp (Nat.findGreatest_spec
    (P := fun i => (c.visit? i).isSome = true) (Nat.zero_le m.code.length) hzero)
  refine ⟨_, w, hw, fun j hj => ?_⟩
  by_contra hsome
  have hj' := Option.isSome_iff_ne_none.mpr hsome
  have hle := Nat.le_findGreatest (P := fun i => (c.visit? i).isSome = true) (hbound j hj') hj'
  omega

/-- After the last instruction that was reached there is only the blank line. -/
theorem lines_eq_of_last {c : m.Compilation options session} (hv : c.visit? i = some v)
    (hlast : ∀ j, i < j → c.visit? j = none) :
    c.lines = c.head ++ (List.range i).flatMap c.pieceAt ++ v.lines ++ [.blank] := by
  have hnil : (c.walk.stops.drop (i + 1)).flatMap Stop.lines = [] := by
    refine List.eq_nil_iff_forall_not_mem.mpr fun l hl => ?_
    obtain ⟨j, w, hj, hw, -⟩ := mem_lines_drop hl
    cases (hlast j (by omega)).symm.trans hw
  rw [lines_eq hv, hnil, flatMap_take]
  simp only [List.nil_append]

theorem closed_lines_iff (c : m.Compilation options session) (hs : session.Reached M)
    (hne : m.code ≠ []) : Line.closed c.lines = true ↔ ¬ OnPath m.code m.code.length := by
  have hpos := List.length_pos_iff.mpr hne
  obtain ⟨i, v, hv, hlast⟩ := c.exists_last_visit hne
  obtain ⟨instruction, _, _, _, hi, -⟩ := c.visit_code hv
  have hlt := (List.getElem?_eq_some_iff.mp hi).1
  have hquiet : ∀ l ∈ [Line.blank], l.isOperation = false := List.forall_mem_singleton.mpr rfl
  rw [lines_eq_of_last hv hlast, Line.closed_append_of_quiet hquiet]
  cases hop : instruction.op.departs with
  | true =>
    obtain ⟨hclosed, hoperation⟩ := closed_of_visit hi hv hop
    rw [Line.closed_append_of_operation hoperation]
    refine ⟨fun _ hpath => ?_, fun _ => hclosed⟩
    obtain ⟨last, hget, hon, hflow⟩ := (onPath_length_iff hne).mp hpath
    -- The last instruction was reached, so it is the one that departs.
    have hreach := (onPath_iff_reachable c.target (by omega)).mp hon
    have hvisit := (c.visited_iff_reachable hs _).mpr hreach
    have hindex : i = m.code.length - 1 := by
      by_contra hne'
      rw [hlast _ (by omega)] at hvisit
      cases hvisit
    have hsame : m.code[m.code.length - 1]? = some last := List.getLast?_eq_getElem?.symm.trans hget
    rw [← hindex] at hsame
    cases hi.symm.trans hsame
    cases hop.symm.trans (Op.departs_eq_false.mpr hflow)
  | false =>
    have hflow := Op.departs_eq_false.mp hop
    have hvisited : (c.visit? i).isSome = true := by
      rw [hv]
      rfl
    -- Otherwise the next instruction would have been reached as well.
    have hindex : i + 1 = m.code.length := by
      by_contra hne'
      have hnext := (c.falls_through hi hvisited hflow (by omega)).1
      rw [hlast (i + 1) (by omega)] at hnext
      cases hnext
    have hopen := open_before (c := c) hs (i + 1) (.inr ⟨i, instruction, rfl, hi, hop, hvisited⟩)
    rw [List.range_succ, List.flatMap_append, ← List.append_assoc, List.flatMap_singleton,
      pieceAt_of_visit hv] at hopen
    rw [hopen]
    refine iff_of_false Bool.false_ne_true (not_not_intro ?_)
    have hon := (onPath_iff_reachable c.target hlt).mpr ((c.visited_iff_reachable hs i).mp hvisited)
    exact hindex ▸ hon.tail (.fall hi hflow)

end MethodDef.Compilation

/-- How control goes through a body, and whether it runs on past the lines of the method. -/
structure Exits (body : List Instruction) (lines : List Line) : Prop where
  /-- A jump or branch has its target in the body. -/
  target : ∀ i ∈ body, ∀ t, i.op.branchTarget? = some t → ∃ j, j < body.length ∧ Resolves body t j
  bounded : ∀ j, OnPath body j → j ≤ body.length
  /-- A path that cannot go on ends at a return, or past the last instruction. -/
  maximal : ∀ j, OnPath body j → (∀ k, ¬ Control body j k) →
    (∃ i, body[j]? = some i ∧ i.op = .ret) ∨ j = body.length
  endless : ∀ path : Nat → Nat, path 0 = 0 → (∀ n, Control body (path n) (path (n + 1))) →
    ∀ n, path n < body.length
  past : OnPath body body.length ↔ RunsOff body
  closed : Line.closed lines = true ↔ ¬ RunsOff body

namespace MethodDef

theorem Compilation.ret_of_stuck {m : MethodDef} {options : Options} {session : Session}
    (c : m.Compilation options session) {j : Nat} {i : Instruction} (hi : m.code[j]? = some i)
    (hstuck : ∀ k, ¬ Control m.code j k) : i.op = .ret := by
  cases hop : i.op.departs with
  | false => exact absurd (.fall hi (Op.departs_eq_false.mp hop)) (hstuck (j + 1))
  | true =>
    obtain ⟨offset, op⟩ := i
    cases op with
    | ret => rfl
    | br t =>
      obtain ⟨k, hk⟩ := c.target t (mem_targets hi (.inl rfl))
      exact absurd (.target hi rfl (resolves_iff.mpr (position_eq_ok hk))) (hstuck k)
    | _ => cases hop

theorem leaves_only_past_the_last {M : Module} (m : MethodDef) (options : Options)
    {session session' : Session} {lines : List Line} (hs : session.Reached M) (hne : m.code ≠ [])
    (h : m.compile options session = .ok (lines, session')) : Exits m.code lines := by
  obtain ⟨c, rfl, -⟩ := compile_ok.mp h
  refine ⟨fun i hi t ht => ?_, fun j => OnPath.le, fun j hj hstuck => ?_, fun path _ hpath n => ?_,
    onPath_length_iff hne, ?_⟩
  · obtain ⟨j, hj⟩ := (c.explored hs).resolved i hi t ht
    obtain ⟨⟨_, hget, -⟩, -⟩ := id hj
    exact ⟨j, (List.getElem?_eq_some_iff.mp hget).1, hj⟩
  · cases hi : m.code[j]? with
    | none =>
      have hge := List.getElem?_eq_none_iff.mp hi
      have hle := OnPath.le hj
      exact .inr (by omega)
    | some i => exact .inl ⟨i, rfl, c.ret_of_stuck hi hstuck⟩
  · exact (hpath n).lt
  · rw [← onPath_length_iff hne]
    exact c.closed_lines_iff hs hne

/-- A method that does nothing and does not return. -/
def idle : MethodDef where
  name := "idle"
  params := []
  ret := .void
  body := some (number [.nop])

theorem leaves_only_past_the_last_idle : idle.code ≠ [] ∧
    ∃ lines session, idle.compile {} (.ofModule ⟨"module", []⟩) = .ok (lines, session) ∧
      Exits idle.code lines := by
  have hne : idle.code ≠ [] := by decide
  have hok : (idle.compile {} (.ofModule ⟨"module", []⟩)).toBool = true := by decide +kernel
  obtain ⟨⟨lines, session⟩, h⟩ := exists_of_toBool hok
  exact ⟨hne, lines, session, h, leaves_only_past_the_last idle {} .start hne h⟩

theorem runs_off_idle : RunsOff idle.code ∧
    (idle.compile {} (.ofModule ⟨"module", []⟩)).toOption.map (fun r => Line.closed r.1) =
      some false := by
  refine ⟨⟨⟨0, .nop⟩, rfl, .refl, .inl rfl⟩, ?_⟩
  decide +kernel

end MethodDef

end CilMmix
