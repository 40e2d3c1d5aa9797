import CilMmix.Proofs.Assembly.Piece
import CilMmix.Proofs.Method.Compilation
import CilMmix.Proofs.Method.Lockstep
import CilMmix.Proofs.Text.Inline

/-! Annotations. The assembly of a module falls into passages, and the annotated one has a remark before
the passage of each instruction that was reached, and is otherwise the same. The remark shows names as
they are, so that one with a line end puts what follows it on a line of its own. -/

namespace CilMmix

namespace Writer

/-- What a writer has written stays in front, and the setting matters to remarks only. -/
theorem finish_emitAll_append (annotate annotate' : Bool) (first written : List Line)
    (pending : Option String) (lines : List Line) :
    (emitAll ⟨annotate, first ++ written, pending⟩ lines).finish =
      first ++ (emitAll ⟨annotate', written, pending⟩ lines).finish := by
  induction lines generalizing written pending with
  | nil => cases pending <;> simp [emitAll, finish, flush]
  | cons l lines ih =>
    have hemit : ∃ more pending', emit ⟨annotate, first ++ written, pending⟩ l =
          ⟨annotate, first ++ (written ++ more), pending'⟩ ∧
        emit ⟨annotate', written, pending⟩ l = ⟨annotate', written ++ more, pending'⟩ := by
      cases l with
      | op label code operands =>
        cases label with
        | none => exact ⟨[.op pending code operands], none, by simp [emit]⟩
        | some label => cases pending <;> simp [emit, flush]
      | note label text =>
        cases label with
        | none => exact ⟨[.note pending text], none, by simp [emit]⟩
        | some label => cases pending <;> simp [emit, flush]
      | comment text => exact ⟨[.comment text], pending, by simp [emit]⟩
      | blank => exact ⟨[.blank], pending, by simp [emit]⟩
      | verbatim text => cases pending <;> simp [emit, flush]
    obtain ⟨more, pending', hnoted, hplain⟩ := hemit
    have hrest := ih (written ++ more) pending'
    simp only [emitAll, List.foldl_cons, hnoted, hplain] at hrest ⊢
    exact hrest

end Writer

/-- The remark comes before the label, whatever the code of the instruction is. -/
theorem piece_annotated (label : Option String) (i : Instruction) (lines : List Line) :
    piece true label i lines = .comment i.text :: piece false label i lines := by
  have h := Writer.finish_emitAll_append true false [.comment i.text] [] label lines
  cases label with
  | none => exact h
  | some label => exact h

/-- A part of the assembly: the lines of an instruction, or others. -/
structure Passage where
  instruction : Option Instruction
  lines : List Line

namespace Passage

def remark (p : Passage) : List Line := p.instruction.toList.map fun i => .comment i.text

/-- The lines of a passage in a text with or without annotations. -/
def shown (annotate : Bool) (p : Passage) : List Line :=
  if annotate then p.remark ++ p.lines else p.lines

end Passage

def Stop.annotated (s : Stop) : Stop :=
  { s with visit := s.visit.map fun v => { v with lines := .comment s.instruction.text :: v.lines } }

namespace Walk

variable {site : Site} {body : List Instruction}

/-- The walk with all its code annotated. -/
def annotated (w : Walk) : Walk := { w with stops := w.stops.map Stop.annotated }

/-- The code of the instructions that were reached. -/
def passages (w : Walk) : List Passage :=
  w.stops.filterMap fun s => s.visit.map fun v => ⟨some s.instruction, v.lines⟩

theorem lines_eq_passages (w : Walk) : w.lines = w.passages.flatMap (Passage.shown false) := by
  obtain ⟨queue, stops, session⟩ := w
  induction stops with
  | nil => rfl
  | cons s stops ih =>
    obtain ⟨instruction, visit⟩ := s
    simp only [lines, passages] at ih ⊢
    cases visit with
    | none => simpa using ih
    | some v => simpa [Passage.shown] using ih

theorem lines_annotated (w : Walk) :
    w.annotated.lines = w.passages.flatMap (Passage.shown true) := by
  obtain ⟨queue, stops, session⟩ := w
  induction stops with
  | nil => rfl
  | cons s stops ih =>
    obtain ⟨instruction, visit⟩ := s
    simp only [lines, passages, annotated] at ih ⊢
    cases visit with
    | none => simpa [Stop.annotated] using ih
    | some v => simpa [Stop.annotated, Passage.shown, Passage.remark] using ih

theorem visit_annotated (i : Instruction) (arriving : List Element) (session : Session) :
    Route.visit ⟨site, true, body⟩ i arriving session =
      (Route.visit ⟨site, false, body⟩ i arriving session).map
        fun r => (.comment i.text :: r.1, r.2) := by
  simp only [Route.visit, StateT.run, Lower.piece, Route.label?, piece_annotated]
  change Except.bind _ _ = Except.map _ (Except.bind _ _)
  cases Lower.instruction site i ⟨session, ⟨site.frame.stop, arriving⟩⟩ <;> rfl

/-- An arrival comes to the same with and without annotations. -/
theorem step_annotated (w : Walk) (i : Nat) (arriving : List Element)
    (queue : List (Nat × List Element)) :
    w.annotated.step ⟨site, true, body⟩ i arriving queue =
      (w.step ⟨site, false, body⟩ i arriving queue).map annotated := by
  have hstop : w.annotated.stops[i]? = w.stops[i]?.map Stop.annotated := List.getElem?_map ..
  unfold step pass
  rw [hstop]
  cases hs : w.stops[i]? with
  | none => rfl
  | some s =>
    obtain ⟨instruction, visit⟩ := s
    cases visit with
    | some first =>
      simp only [Option.map_some, Stop.annotated]
      split <;> rfl
    | none =>
      simp only [Option.map_some, Option.map_none, Stop.annotated, visit_annotated]
      cases hv : Route.visit ⟨site, false, body⟩ instruction arriving w.session with
      | error fault =>
        simp [annotated, hv, bind, Except.bind, Except.map]
      | ok r =>
        cases ho : onward body i instruction.op.flow with
        | error fault => simp [record, ho, annotated, hv, bind, Except.bind, Except.map]
        | ok o =>
          simp [record, ho, annotated, hv, bind, Except.bind, Except.map, List.map_set, Stop.annotated,
            pure, Except.pure]

theorem run_annotated (w : Walk) : w.annotated.run ⟨site, true, body⟩ =
    (w.run ⟨site, false, body⟩).map annotated := by
  apply Agree.eq_map
  refine agree_run (R := fun w v => v = w.annotated) (fun w v h => h ▸ rfl) ?_ rfl
  rintro w _ i arriving queue - rfl
  rw [step_annotated]
  cases w.step ⟨site, false, body⟩ i arriving queue with
  | ok w' => exact .ok rfl
  | error fault => exact .error fault

theorem annotated_start (session : Session) :
    (start body session).annotated = start body session := by
  simp [annotated, start, Stop.annotated, Function.comp_def]

/-- A walk has the same passages in both settings, and its lines are these as they are shown. -/
theorem agree_start (annotate : Bool) (session : Session) :
    Agree (fun w v => v.lines = w.passages.flatMap (Passage.shown annotate) ∧ v.session = w.session)
      ((start body session).run ⟨site, false, body⟩)
      ((start body session).run ⟨site, annotate, body⟩) := by
  cases annotate with
  | false => exact .of_eq fun w _ => ⟨w.lines_eq_passages, rfl⟩
  | true =>
    have hrun := @run_annotated site body (start body session)
    rw [annotated_start] at hrun
    rw [hrun]
    cases (start body session).run ⟨site, false, body⟩ with
    | error fault => exact .error fault
    | ok w => exact .ok ⟨w.lines_annotated, rfl⟩

/-- The passages of a walk are the pieces of instructions of the body. -/
theorem mem_passages {session : Session} {w : Walk}
    (h : (start body session).run ⟨site, false, body⟩ = .ok w) {p : Passage} (hp : p ∈ w.passages) :
    ∃ i ∈ body, p.instruction = some i ∧ ∃ label code, p.lines = piece false label i code := by
  have hcarries : Carries ⟨site, false, body⟩ (fun _ => True) (fun _ _ => True) :=
    fun _ _ _ _ _ _ _ _ _ _ _ _ => ⟨trivial, fun _ _ => trivial⟩
  have hcoherent := (Coherent.run hcarries trivial trivial h).1
  obtain ⟨s, hs, hv⟩ := List.mem_filterMap.mp hp
  obtain ⟨instruction, visit⟩ := s
  obtain ⟨v, rfl, rfl⟩ := Option.map_eq_some_iff.mp hv
  obtain ⟨k, hk⟩ := List.mem_iff_getElem?.mp hs
  obtain ⟨-, σ, after, o, -, hvisit, -⟩ := hcoherent.visited k instruction v hk
  obtain ⟨code, -, hlines⟩ := Route.visit_ok.mp hvisit
  have hbody := hcoherent.instruction_eq hk
  exact ⟨instruction, List.mem_of_getElem? hbody, rfl, _, code, hlines⟩

end Walk

namespace MethodDef

variable {options : Options} {session : Session} {m : MethodDef}

/-- The passages of a method with a body: its head, the code of what was reached, and a blank line. -/
def bodyPassages (m : MethodDef) (options : Options) (session : Session) :
    Except Fault (List Passage × Session) := do
  let (frame, layout) ← (Frame.build m).run session.layout
  let head ← m.prologue frame
  (targets m.code).forM fun t => discard (position m.code t)
  let walk ← (Walk.start m.code { session with layout }).run ⟨m.site options frame, false, m.code⟩
  return (⟨none, head⟩ :: walk.passages ++ [⟨none, [.blank]⟩], walk.session)

def passages (m : MethodDef) (options : Options) (session : Session) :
    Except Fault (List Passage × Session) :=
  if m.code.isEmpty then do return ([⟨none, ← Routine.named m.name⟩], session)
  else m.bodyPassages options session

theorem compile_eq_passages (m : MethodDef) (options : Options) (annotate : Bool)
    (session : Session) : m.compile { options with annotate } session =
      (m.bodyPassages options session).map fun r => (r.1.flatMap (Passage.shown annotate), r.2) := by
  apply Agree.eq_map
  apply Agree.bind (.of_eq fun _ _ => rfl)
  rintro ⟨frame, layout⟩ _ - - rfl
  apply Agree.bind (.of_eq fun _ _ => rfl)
  rintro head _ - - rfl
  apply Agree.bind (.of_eq fun _ _ => rfl)
  rintro u _ - - rfl
  apply (Walk.agree_start annotate { session with layout }).bind
  rintro w v - - ⟨hlines, hsession⟩
  refine .ok (Prod.ext ?_ hsession)
  have hhead : Passage.shown annotate ⟨none, head⟩ = head := by cases annotate <;> rfl
  have hblank : Passage.shown annotate ⟨none, [.blank]⟩ = [.blank] := by cases annotate <;> rfl
  simp [hlines, hhead, hblank]

theorem assemble_eq_passages (m : MethodDef) (options : Options) (annotate : Bool)
    (session : Session) : m.assemble { options with annotate } session =
      (m.passages options session).map fun r => (r.1.flatMap (Passage.shown annotate), r.2) := by
  unfold assemble passages
  split
  · cases Routine.named m.name with
    | error fault => rfl
    | ok lines =>
      cases annotate <;>
        simp [Except.map, bind, Except.bind, pure, Except.pure, Passage.shown, Passage.remark]
  · exact m.compile_eq_passages options annotate session

/-- The passages with an instruction are pieces of the method's instructions. -/
theorem mem_passages {ps : List Passage} {after : Session}
    (h : m.passages options session = .ok (ps, after)) {p : Passage} (hp : p ∈ ps) {i : Instruction}
    (hi : p.instruction = some i) : i ∈ m.code ∧ ∃ label code, p.lines = piece false label i code := by
  unfold passages at h
  split at h
  · obtain ⟨lines, -, hpure⟩ := bind_eq_ok.mp h
    cases hpure
    obtain rfl := List.mem_singleton.mp hp
    cases hi
  · simp only [bodyPassages, bind_eq_ok, pure_eq_ok, Prod.mk.injEq] at h
    obtain ⟨⟨frame, layout⟩, -, head, -, -, -, walk, hwalk, rfl, -⟩ := h
    simp only [List.cons_append, List.mem_cons, List.mem_append, List.not_mem_nil, or_false] at hp
    rcases hp with rfl | hp | rfl
    · cases hi
    · obtain ⟨i', hmem, hi', hpiece⟩ := Walk.mem_passages hwalk hp
      cases hi.symm.trans hi'
      exact ⟨hmem, hpiece⟩
    · cases hi

end MethodDef

namespace Module

def passagesAll (options : Options) :
    List (String × MethodDef) → Session → Except Fault (List Passage × Session)
  | [], session => .ok ([], session)
  | (name, d) :: rest, session =>
    match d.passages options session with
    | .error fault => .error (.inMethod name fault)
    | .ok (ps, session) => do
      let (more, session) ← passagesAll options rest session
      return (ps ++ more, session)

/-- The passages of a module: the origin, those of the methods, and the data segment. -/
def passages (M : Module) (options : Options) : Except Fault (List Passage) := do
  let (ps, session) ← passagesAll options M.compiledMethods (.ofModule M)
  return ⟨none, [.ins .loc [.hex 1 options.textOrigin]]⟩ :: ps ++ [⟨none, session.statics.lines⟩]

theorem assembleAll_eq_passages (options : Options) (annotate : Bool) (list : List (String × MethodDef))
    (session : Session) : assembleAll { options with annotate } list session =
      (passagesAll options list session).map fun r => (r.1.flatMap (Passage.shown annotate), r.2) := by
  induction list generalizing session with
  | nil => rfl
  | cons first rest ih =>
    obtain ⟨name, d⟩ := first
    rw [assembleAll, passagesAll, d.assemble_eq_passages]
    cases d.passages options session with
    | error fault => rfl
    | ok r =>
      obtain ⟨ps, after⟩ := r
      simp only [Except.map, ih]
      cases passagesAll options rest after with
      | error fault => rfl
      | ok r => simp [bind, Except.bind, pure, Except.pure]

theorem mem_passagesAll {options : Options} {list : List (String × MethodDef)} {session after : Session}
    {ps : List Passage} (h : passagesAll options list session = .ok (ps, after)) {p : Passage}
    (hp : p ∈ ps) {i : Instruction} (hi : p.instruction = some i) :
    ∃ d ∈ list, i ∈ d.2.code ∧ ∃ label code, p.lines = piece false label i code := by
  induction list generalizing session ps with
  | nil =>
    cases h
    cases hp
  | cons first rest ih =>
    obtain ⟨name, d⟩ := first
    rw [passagesAll] at h
    cases hd : d.passages options session with
    | error fault =>
      rw [hd] at h
      cases h
    | ok r =>
      obtain ⟨here, next⟩ := r
      rw [hd] at h
      obtain ⟨⟨more, last⟩, hmore, hpure⟩ := bind_eq_ok.mp h
      cases hpure
      rcases List.mem_append.mp hp with hp | hp
      · exact ⟨(name, d), List.mem_cons_self, MethodDef.mem_passages hd hp hi⟩
      · obtain ⟨d', hd', hpiece⟩ := ih hmore hp
        exact ⟨d', List.mem_cons_of_mem _ hd', hpiece⟩

theorem compile_eq_passages (M : Module) (options : Options) (annotate : Bool) :
    M.compile { options with annotate } =
      (M.passages options).map fun ps => ps.flatMap (Passage.shown annotate) := by
  unfold compile passages
  rw [assembleAll_eq_passages]
  cases passagesAll options M.compiledMethods (.ofModule M) with
  | error fault => rfl
  | ok r =>
    cases annotate <;>
      simp [Except.map, bind, Except.bind, pure, Except.pure, Passage.shown, Passage.remark]

/-- Both settings give the same passages or the same fault. An annotated text has one remark more before
the piece of each instruction that was reached. The remark is a line exactly if no name that it shows
has a line end. -/
theorem annotations_transparent (M : Module) (options : Options) :
    M.compile { options with annotate := false } =
      (M.passages options).map (fun ps => ps.flatMap Passage.lines) ∧
    M.compile { options with annotate := true } =
      (M.passages options).map (fun ps => ps.flatMap fun p => p.remark ++ p.lines) ∧
    ∀ ps, M.passages options = .ok ps → ∀ p ∈ ps, ∀ i, p.instruction = some i →
      Line.render p.remark = " % " ++ i.text ++ "\n" ∧
      (∃ d ∈ M.compiledMethods, i ∈ d.2.code ∧ ∃ label code, p.lines = piece false label i code) ∧
      (Text.lines (" % " ++ i.text) = [" % " ++ i.text] ↔ ∀ n ∈ i.op.names, Text.Inline n) := by
  refine ⟨M.compile_eq_passages options false, M.compile_eq_passages options true, ?_⟩
  intro ps h p hp i hi
  obtain ⟨⟨code, session⟩, hall, hpure⟩ := bind_eq_ok.mp h
  cases hpure
  have hmark : Text.Inline " % " := by decide
  have hline : Text.lines (" % " ++ i.text) = [" % " ++ i.text] ↔ ∀ n ∈ i.op.names, Text.Inline n := by
    rw [Text.lines_eq_singleton, Text.inline_append, Instruction.inline_text]
    exact and_iff_right hmark
  simp only [List.cons_append, List.mem_cons, List.mem_append, List.not_mem_nil, or_false] at hp
  rcases hp with rfl | hp | rfl
  · cases hi
  · exact ⟨by simp [Passage.remark, hi, Line.render, Line.text], mem_passagesAll hall hp hi, hline⟩
  · cases hi

/-- A module with a field whose name has a line end, and after it an operation. -/
def brokenName : Module :=
  ⟨"broken", [⟨"Box", .classType, [⟨"a\n TRAP 0,Halt,0", .primitive .int64, false⟩],
    [{ name := "read", params := [.named "Box"],
       body := some (MethodDef.number [.load (.arg 0), .field .load ⟨"Box", "a\n TRAP 0,Halt,0"⟩, .pop,
         .ret]) }]⟩]⟩

/-- Four instructions get five lines more, and one of them is the operation. -/
theorem annotation_breaks_line : ∃ plain annotated,
    brokenName.compile { annotate := false } = .ok plain ∧
    brokenName.compile { annotate := true } = .ok annotated ∧
    (Text.lines (Line.render annotated)).length = (Text.lines (Line.render plain)).length + 5 ∧
    " TRAP 0,Halt,0" ∈ Text.lines (Line.render annotated) ∧
    " TRAP 0,Halt,0" ∉ Text.lines (Line.render plain) := by
  have hrows : ((brokenName.compile { annotate := false }).toOption.map fun plain =>
      ((Text.lines (Line.render plain)).length,
        decide (" TRAP 0,Halt,0" ∈ Text.lines (Line.render plain)))) = some (8, false) ∧
      ((brokenName.compile { annotate := true }).toOption.map fun annotated =>
        ((Text.lines (Line.render annotated)).length,
          decide (" TRAP 0,Halt,0" ∈ Text.lines (Line.render annotated)))) = some (13, true) := by
    decide +kernel
  obtain ⟨plain, hplain, hrowsPlain⟩ := exists_of_toOption hrows.1
  obtain ⟨annotated, hannotated, hrowsAnnotated⟩ := exists_of_toOption hrows.2
  obtain ⟨hlength, hnot⟩ := Prod.mk.inj hrowsPlain
  obtain ⟨hlength', hmem⟩ := Prod.mk.inj hrowsAnnotated
  refine ⟨plain, annotated, hplain, hannotated, ?_, of_decide_eq_true hmem, of_decide_eq_false hnot⟩
  rw [hlength, hlength']

end Module

end CilMmix
