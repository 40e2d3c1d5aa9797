import CilMmix.Proofs.Method.Pieces

/-! Registers that the code of a method leaves alone: those of the frame, but for the stores to
variables and the return, and among them that of the return address. -/

namespace CilMmix

theorem Line.IsMove.writes_iff {p : Nat × Nat} {l : Line} (h : l.IsMove p) {k : Nat} :
    l.Writes k ↔ k = p.1 := by
  obtain ⟨x, y, hx, -, rfl⟩ := h
  exact ⟨fun hk => hk.2.trans hx, fun hk => ⟨rfl, hk.trans hx.symm⟩⟩

theorem Moves.writes_iff {pairs : List (Nat × Nat)} {lines : List Line} (h : Moves pairs lines)
    {k : Nat} : (∃ l ∈ lines, l.Writes k) ↔ ∃ p ∈ pairs, k = p.1 := by
  induction h with
  | nil => simp
  | cons hp _ ih => simp only [List.exists_mem_cons_iff, hp.writes_iff, ih]

namespace Line

/-- Sets the argument of the trap that ends the program. -/
def haltArgument : Line := .ins .set [.reg .trap, .imm 0]

/-- Ends the program. -/
def halt : Line := .ins .trap [.imm 0, .sym "Halt", .imm 0]

/-- Only registers with a property are written, but for the argument of the trap right before it. -/
def WritesOnly (Q : Nat → Prop) : List Line → Prop
  | [] => True
  | l :: rest =>
    ((∀ k, l.Writes k → Q k) ∨ (l.unlabel = haltArgument ∧ rest.head? = some halt)) ∧ WritesOnly Q rest

variable {Q Q' : Nat → Prop} {lines a b : List Line}

theorem writesOnly_of_forall (h : ∀ l ∈ lines, ∀ k, l.Writes k → Q k) : WritesOnly Q lines := by
  induction lines with
  | nil => trivial
  | cons l lines ih =>
    exact ⟨.inl (h l List.mem_cons_self), ih fun l' hl' => h l' (List.mem_cons_of_mem _ hl')⟩

theorem WritesOnly.mono (h : WritesOnly Q lines) (hQ : ∀ k, Q k → Q' k) : WritesOnly Q' lines := by
  induction lines with
  | nil => trivial
  | cons l lines ih => exact ⟨h.1.imp_left fun hl k hk => hQ k (hl k hk), ih h.2⟩

theorem WritesOnly.append (ha : WritesOnly Q a) (hb : WritesOnly Q b) : WritesOnly Q (a ++ b) := by
  induction a with
  | nil => exact hb
  | cons l a ih =>
    rw [List.cons_append]
    refine ⟨ha.1.imp_right fun ⟨hl, hnext⟩ => ⟨hl, ?_⟩, ih ha.2⟩
    rw [List.head?_append, hnext]
    rfl

theorem WritesOnly.labelled? (h : WritesOnly Q lines) (hcode : IsCode lines) (label : Option String) :
    WritesOnly Q (labelled? label lines) := by
  cases label with
  | none => exact h
  | some label =>
    rcases hcode.starts with rfl | ⟨code, operands, rest, rfl⟩
    · exact ⟨.inl nofun, trivial⟩
    · exact h

theorem WritesOnly.piece (h : WritesOnly Q lines) (hcode : IsCode lines) (annotate : Bool)
    (label : Option String) (i : Instruction) : WritesOnly Q (piece annotate label i lines) := by
  rw [piece_eq hcode.plain]
  refine .append (writesOnly_of_forall fun l hl k hk => ?_) (h.labelled? hcode label)
  split at hl
  · obtain rfl := List.mem_singleton.mp hl
    cases hk
  · cases hl

theorem exists_writes_piece (hcode : IsCode lines) (annotate : Bool) (label : Option String)
    (i : Instruction) (k : Nat) :
    (∃ l ∈ piece annotate label i lines, l.Writes k) ↔ ∃ l ∈ lines, l.Writes k := by
  constructor
  · rintro ⟨l, hl, hk⟩
    rcases mem_piece hcode hl with ⟨text, rfl⟩ | ⟨name, rfl⟩ | ⟨l', hl', he⟩
    · cases hk
    · cases hk
    · exact ⟨l', hl', by rwa [← writes_unlabel, ← he, writes_unlabel]⟩
  · rintro ⟨l, hl, hk⟩
    obtain ⟨l', hl', he⟩ := exists_mem_piece hcode annotate label i hl
    exact ⟨l', hl', by rwa [← writes_unlabel, he, writes_unlabel]⟩

end Line

namespace Lower

variable {site : Site} {m : MethodDef} {s t : LowerState} {code : List Line}

/-- A store to a variable writes the registers of the variable. -/
theorem storeSlot_writes {b : Block} {index : Nat} (h : storeSlot b index s = .ok (code, t)) :
    ∃ e, b.elems[index]? = some e ∧
      ∀ k, (∃ l ∈ code, l.Writes k) ↔ e.offset ≤ k ∧ k < e.stop := by
  obtain ⟨e, top, rest, he, -, -, hmoves⟩ := storeSlot_ok h
  refine ⟨e, he, fun k => hmoves.writes_iff.trans ?_⟩
  simp only [List.mem_map, List.mem_range, Element.stop]
  constructor
  · rintro ⟨_, ⟨j, hj, rfl⟩, rfl⟩
    omega
  · rintro ⟨hge, hlt⟩
    exact ⟨_, ⟨k - e.offset, by omega, rfl⟩, by simp only; omega⟩

theorem giveBack_writes {f : Frame} (h : giveBack f s = .ok (code, t)) :
    ∀ l ∈ code, ∀ k, l.Writes k → f.ret.offset ≤ k ∧ k < f.ret.stop := by
  obtain ⟨first, others, e, rest, -, -, hpos, -, rfl, hfirst, hothers⟩ := giveBack_ok h
  intro l hl k hk
  simp only [List.mem_append, List.mem_singleton] at hl
  simp only [Block.stop]
  rcases hl with (hl | hl) | rfl
  · obtain ⟨p, hp, hmove⟩ := hfirst.mem hl
    obtain ⟨j, hj, rfl⟩ := mem_copyPairs hp
    have hk := hmove.writes_iff.mp hk
    simp only at hk
    omega
  · obtain ⟨p, hp, hmove⟩ := hothers.mem hl
    obtain ⟨j, hj, rfl⟩ := mem_copyPairs hp
    have hk := hmove.writes_iff.mp hk
    simp only at hk
    omega
  · cases hk

theorem stopLines_writesOnly (halts : Bool) (Q : Nat → Prop) : Line.WritesOnly Q (stopLines halts) := by
  cases halts with
  | true => exact ⟨.inr ⟨rfl, rfl⟩, .inl nofun, trivial⟩
  | false => exact ⟨.inl nofun, trivial⟩

/-- A return writes the registers of the result. -/
theorem ret_writesOnly (h : ret site s = .ok (code, t)) :
    Line.WritesOnly (fun k => site.frame.ret.offset ≤ k ∧ k < site.frame.ret.stop) code := by
  obtain ⟨o, leave, remark, -, rfl, hremark, hleave⟩ := ret_ok h
  refine .append (.append (Line.writesOnly_of_forall fun l hl k hk => ?_) ?_)
    (Line.writesOnly_of_forall fun l hl k hk => ?_)
  · cases o with
    | none => cases hl
    | some r =>
      obtain rfl := List.mem_singleton.mp hl
      cases hk
  · rcases hleave with ⟨-, rfl, -⟩ | ⟨-, hgive⟩
    · exact stopLines_writesOnly _ _
    · exact Line.writesOnly_of_forall (giveBack_writes hgive)
  · obtain rfl := hremark l hl
    cases hk

end Lower

/-- Which registers the code of an operation may write: a store to a variable those of the variable, a
return those of the result, and all else only registers after the frame. -/
def Frame.Protected (f : Frame) (lines : List Line) : Op → Prop
  | .store v => ∃ e, (v.slot f).1.elems[(v.slot f).2]? = some e ∧
      ∀ k, (∃ l ∈ lines, l.Writes k) ↔ e.offset ≤ k ∧ k < e.stop
  | .ret => Line.WritesOnly (fun k => f.ret.offset ≤ k ∧ k < f.ret.stop) lines
  | _ => ∀ l ∈ lines, ∀ k, l.Writes k → f.stop ≤ k

namespace Route

/-- Operands that instructions leave on the stack, one after the other. -/
inductive Arrives (route : Route) : List Element → Prop
  | start : Arrives route []
  | visit {i : Instruction} {elems : List Element} {session : Session} {lines : List Line}
      {after : LowerState} : Arrives route elems →
      route.visit i elems session = .ok (lines, after) → Arrives route after.stack.elems

theorem Arrives.stacked {route : Route} {elems : List Element} (h : route.Arrives elems) :
    Shape.Stacked route.site.frame.stop (shape elems) := by
  induction h with
  | start => trivial
  | visit _ hvisit ih =>
    obtain ⟨code, hcode, -⟩ := visit_ok.mp hvisit
    exact (Lower.stays_instruction _ _ _ rfl ih code _ hcode).2.1

theorem visit_protected {route : Route} {m : MethodDef} (hf : route.site.frame.Laid m)
    {i : Instruction} {elems : List Element} {session : Session} {lines : List Line}
    {after : LowerState} (hs : Shape.Stacked route.site.frame.stop (shape elems))
    (h : route.visit i elems session = .ok (lines, after)) :
    route.site.frame.Protected lines i.op := by
  obtain ⟨code, hcode, rfl⟩ := visit_ok.mp h
  have hisCode := Lower.instruction_isCode hf rfl hs hcode
  obtain ⟨offset, op⟩ := i
  by_cases hret : op = .ret
  · subst hret
    exact (Lower.ret_writesOnly hcode).piece hisCode ..
  by_cases hstore : ∃ v, op = .store v
  · obtain ⟨v, rfl⟩ := hstore
    obtain ⟨e, he, hwrites⟩ := Lower.storeSlot_writes hcode
    exact ⟨e, he, fun k => (Line.exists_writes_piece hisCode ..).trans (hwrites k)⟩
  have hemits : Lower.Emits route.site.frame.stop op.isCall
      (op.branchTarget?.map route.site.branchLabel) (Lower.instruction route.site ⟨offset, op⟩) :=
    Lower.emits_instruction route.site ⟨offset, op⟩ (fun v hv => hstore ⟨v, hv⟩) hret
  have hworks := (hemits _ rfl hs code after hcode).2.2
  have hall : ∀ l ∈ CilMmix.piece route.annotate (route.label? offset) ⟨offset, op⟩ code, ∀ k,
      l.Writes k → route.site.frame.stop ≤ k := by
    intro l hl k hk
    obtain ⟨l', hl', hk'⟩ := (Line.exists_writes_piece hisCode ..).mp ⟨l, hl, hk⟩
    exact (hworks l' hl').writes k hk'
  cases op with
  | ret => exact absurd rfl hret
  | store v => exact absurd ⟨v, rfl⟩ hstore
  | _ => exact hall

end Route

namespace MethodDef.Compilation

variable {M : Module} {m : MethodDef} {options : Options} {session : Session}

/-- What a method does with its return address. -/
structure Linked (c : m.Compilation options session) : Prop where
  called : ∀ label operands, Line.op label .pushj operands ∈ c.lines → c.frame.calls = true
  /-- It is saved first, and nothing is written in its place. -/
  saved : c.frame.calls = true → ∃ (r : Reg) (rest : List Line), c.frame.backupReg = .ok (some r) ∧
    c.lines = .note (some c.route.site.label) m.signature :: .ins .get [.reg r, .sym "rJ"] :: rest ∧
    Line.WritesOnly (· ≠ r.index.val) rest
  /-- A return puts it back before it does anything else. -/
  restored : c.frame.calls = true → ∀ i v offset, m.code[i]? = some ⟨offset, .ret⟩ →
    c.visit? i = some v → ∃ (r : Reg) (remark : List Line) (label : Option String) (rest : List Line),
      c.frame.backupReg = .ok (some r) ∧
      v.lines = remark ++ .op label .put [.sym "rJ", .reg r] :: rest ∧
      (∀ l ∈ remark, ∃ text, l = .comment text) ∧
      ((∃ n, .ins .pop [.imm n, .imm 0] ∈ rest) ∨ Line.halt ∈ rest)
  unlinked : c.frame.calls = false → ∀ l ∈ c.lines, ¬ l.Links

/-- Only a method that makes calls has to do with the return address. -/
theorem calls_of_links (c : m.Compilation options session) {l : Line} (hl : l ∈ c.lines)
    (hlinks : l.Links) : c.frame.calls = true := by
  rcases mem_lines hl with hl | ⟨i, v, hv, hl⟩ | rfl
  · obtain ⟨o, moves, hbackup, hmoves, hhead⟩ := prologue_ok c.head_eq
    rw [hhead] at hl
    rcases List.mem_cons.mp hl with rfl | hl
    · cases hlinks
    rcases List.mem_append.mp hl with hl | hl
    · cases o with
      | none => cases hl
      | some r => exact (c.laid.backupReg_some hbackup).1
    · obtain ⟨_, -, x, y, -, -, rfl⟩ := hmoves.mem hl
      cases hlinks
  · obtain ⟨instruction, σ, after, code, hi, hs, -, hcode, hlines⟩ := c.visit_code hv
    have hisCode := Lower.instruction_isCode c.laid rfl hs hcode
    obtain ⟨body, remark, rfl, hbody, hremark, -⟩ := Lower.instruction_works c.laid rfl hs hcode
    rw [hlines] at hl
    rcases Line.mem_piece hisCode hl with ⟨text, rfl⟩ | ⟨name, rfl⟩ | ⟨l', hl', he⟩
    · cases hlinks
    · cases hlinks
    rw [← Line.links_unlabel, he, Line.links_unlabel] at hlinks
    rcases List.mem_append.mp hl' with hl' | hl'
    · rcases Bool.or_eq_true_iff.mp ((hbody l' hl').links hlinks) with hcall | hcalls
      · rw [c.laid.calls_eq]
        exact List.any_eq_true.mpr ⟨instruction, List.mem_of_getElem? hi, hcall⟩
      · exact hcalls
    · obtain rfl := hremark l' hl'
      cases hlinks
  · cases hlinks

end MethodDef.Compilation

/-- The saved return address fills a register. -/
theorem Frame.Laid.backup_lt {m : MethodDef} {f : Frame} {types : List TypeDef} (hf : f.Laid m)
    (hs : f.Sized types) (hcalls : f.calls = true) : f.backup.offset < f.backup.stop := by
  have htypes := hf.backup.types_eq
  rw [hcalls, if_pos rfl, List.map_eq_singleton_iff] at htypes
  obtain ⟨e, he, hty⟩ := htypes
  have hsize := hs f.backup (by simp) e (by simp [he])
  rw [hty] at hsize
  have hwords : e.size.words = 1 := congrArg Size.words (hsize.unique (.primitive .nativeUInt))
  simp [Block.stop, Block.words, he, Element.totalWords, hwords]

theorem Line.writesOnly_flatMap {α : Type} {Q : Nat → Prop} {xs : List α} {f : α → List Line}
    (h : ∀ x ∈ xs, WritesOnly Q (f x)) : WritesOnly Q (xs.flatMap f) := by
  induction xs with
  | nil => trivial
  | cons x xs ih =>
    rw [List.flatMap_cons]
    exact (h x List.mem_cons_self).append (ih fun y hy => h y (List.mem_cons_of_mem _ hy))

/-- Nothing that may be written is the register of the return address. -/
theorem Frame.Protected.writesOnly {m : MethodDef} {f : Frame} {types : List TypeDef} (hf : f.Laid m)
    (hs : f.Sized types) (hcalls : f.calls = true) {op : Op} {lines : List Line}
    (h : f.Protected lines op) : Line.WritesOnly (· ≠ f.backup.offset) lines := by
  obtain ⟨hret, hparams, hbackup, hlocals⟩ := hf.ordered
  have hlt := hf.backup_lt hs hcalls
  have hle := hf.backup_le
  have hzero := hf.ret_offset
  have hgap : f.params.offset ≤ f.params.stop := Nat.le_add_right ..
  by_cases hop : op = .ret
  · subst hop
    refine Line.WritesOnly.mono h fun k hk => ?_
    simp only [Block.stop] at hk
    omega
  refine Line.writesOnly_of_forall fun l hl k hk => ?_
  by_cases hstore : ∃ v, op = .store v
  · obtain ⟨v, rfl⟩ := hstore
    obtain ⟨e, he, hwrites⟩ := h
    have hk := (hwrites k).mp ⟨l, hl, hk⟩
    have hmem := List.mem_of_getElem? he
    cases v with
    | arg i =>
      have hbounds := hf.param_bounds hmem
      omega
    | loc i =>
      have hbounds := hf.local_bounds hmem
      omega
  · have hall : ∀ l ∈ lines, ∀ k, l.Writes k → f.stop ≤ k := by
      cases op with
      | ret => exact absurd rfl hop
      | store v => exact absurd ⟨v, rfl⟩ hstore
      | _ => exact h
    have hk := hall l hl k hk
    omega

namespace MethodDef.Compilation

variable {M : Module} {m : MethodDef} {options : Options} {session : Session}

theorem backupReg_of_calls (c : m.Compilation options session) (hcalls : c.frame.calls = true) :
    ∃ r : Reg, c.frame.backupReg = .ok (some r) ∧ r.index.val = c.frame.backup.offset := by
  obtain ⟨o, moves, hbackup, -, -⟩ := prologue_ok c.head_eq
  rcases c.laid.backupReg_ok hbackup with ⟨hno, -⟩ | ⟨r, -, rfl, hr⟩
  · cases hno.symm.trans hcalls
  · exact ⟨r, hbackup, hr⟩

theorem walk_writesOnly (c : m.Compilation options session) (h : session.Reached M)
    (hcalls : c.frame.calls = true) :
    Line.WritesOnly (· ≠ c.frame.backup.offset) c.walk.lines := by
  refine Line.writesOnly_flatMap fun s hs => ?_
  obtain ⟨instruction, visit⟩ := s
  cases visit with
  | none => trivial
  | some v =>
    obtain ⟨i, hi⟩ := List.mem_iff_getElem?.mp hs
    have hv := visit?_eq_some.mpr ⟨instruction, hi⟩
    obtain ⟨instruction, σ, after, code, -, hstacked, hvisit, -⟩ := c.visit_code hv
    exact (Route.visit_protected c.laid hstacked hvisit).writesOnly c.laid (c.sized h) hcalls

theorem saved_link (c : m.Compilation options session) (h : session.Reached M)
    (hcalls : c.frame.calls = true) : ∃ (r : Reg) (rest : List Line),
      c.frame.backupReg = .ok (some r) ∧ c.lines =
        .note (some c.route.site.label) m.signature :: .ins .get [.reg r, .sym "rJ"] :: rest ∧
      Line.WritesOnly (· ≠ r.index.val) rest := by
  obtain ⟨r, hbackup, hr⟩ := c.backupReg_of_calls hcalls
  obtain ⟨o, moves, hbackup', hmoves, hhead⟩ := prologue_ok c.head_eq
  cases hbackup.symm.trans hbackup'
  refine ⟨r, moves ++ (c.walk.lines ++ [.blank]), hbackup, ?_, ?_⟩
  · rw [lines, hhead]
    simp only [saveLines, List.cons_append, List.nil_append, List.append_assoc]
    rfl
  · rw [hr]
    refine .append (Line.writesOnly_of_forall fun l hl k hk => ?_)
      (.append (c.walk_writesOnly h hcalls) ⟨.inl fun _ hk => False.elim hk, trivial⟩)
    obtain ⟨p, hp, hmove⟩ := hmoves.mem hl
    obtain ⟨j, hj, rfl⟩ := mem_copyPairs hp
    have hk := hmove.writes_iff.mp hk
    have hstop : c.frame.params.offset + c.frame.params.words = c.frame.backup.offset :=
      c.laid.ordered.2.1
    simp only at hk
    omega

theorem restored_link (c : m.Compilation options session)
    (hcalls : c.frame.calls = true) {i : Nat} {v : Visit} {offset : UInt32}
    (hi : m.code[i]? = some ⟨offset, .ret⟩) (hv : c.visit? i = some v) :
    ∃ (r : Reg) (remark : List Line) (label : Option String) (rest : List Line),
      c.frame.backupReg = .ok (some r) ∧
      v.lines = remark ++ .op label .put [.sym "rJ", .reg r] :: rest ∧
      (∀ l ∈ remark, ∃ text, l = .comment text) ∧
      ((∃ n, .ins .pop [.imm n, .imm 0] ∈ rest) ∨ Line.halt ∈ rest) := by
  obtain ⟨r, hbackup, -⟩ := c.backupReg_of_calls hcalls
  obtain ⟨instruction, σ, after, code, hi', hs, -, hcode, hlines⟩ := c.visit_code hv
  cases hi.symm.trans hi'
  have hisCode := Lower.instruction_isCode c.laid rfl hs hcode
  obtain ⟨o, leave, remark, hbackup', rfl, -, hleave⟩ := Lower.ret_ok hcode
  cases hbackup.symm.trans hbackup'
  rw [piece_eq hisCode.plain] at hlines
  refine ⟨r, if options.annotate then [.comment (Instruction.mk offset .ret).text] else [],
    c.route.label? offset, leave ++ remark, hbackup, hlines.trans ?_, ?_, ?_⟩
  · cases c.route.label? offset <;> rfl
  · intro l hl
    split at hl
    · exact ⟨_, List.mem_singleton.mp hl⟩
    · cases hl
  · rcases hleave with ⟨-, rfl, -⟩ | ⟨-, hgive⟩
    · cases hhalts : c.route.site.halts with
      | true => exact .inr (List.mem_append_left _ (by simp [Lower.stopLines, Line.halt]))
      | false => exact .inl ⟨0, List.mem_append_left _ (by simp [Lower.stopLines])⟩
    · obtain ⟨_, _, _, _, -, -, -, -, rfl, -⟩ := Lower.giveBack_ok hgive
      exact .inl ⟨_, List.mem_append_left _ (List.mem_append_right _ List.mem_cons_self)⟩

end MethodDef.Compilation

namespace MethodDef

/-- The code of instructions spares the frame, and a method keeps its return address. -/
theorem fixed_window_protected {M : Module} (m : MethodDef) (options : Options) {session : Session}
    (hs : session.Reached M) :
    (∀ frame layout, (Frame.build m).run session.layout = .ok (frame, layout) →
      ∀ i elems σ lines after, (m.route options frame).Arrives elems →
        (m.route options frame).visit i elems σ = .ok (lines, after) → frame.Protected lines i.op) ∧
    ∀ lines session', m.compile options session = .ok (lines, session') →
      ∃ c : m.Compilation options session, c.lines = lines ∧ c.Linked := by
  constructor
  · intro frame layout hframe i elems σ lines after harrives hvisit
    have hlaid : (m.route options frame).site.frame.Laid m := (Frame.build_ok hframe).1
    exact Route.visit_protected hlaid harrives.stacked hvisit
  · intro lines session' h
    obtain ⟨c, hlines, -⟩ := compile_ok.mp h
    refine ⟨c, hlines, ?_, c.saved_link hs, fun hcalls i v offset => c.restored_link hcalls, ?_⟩
    · exact fun label operands hl => c.calls_of_links hl trivial
    · intro hcalls l hl hlinks
      cases hcalls.symm.trans (c.calls_of_links hl hlinks)

/-- A method that calls another one with a copy of its argument. -/
def relayCopy : MethodDef where
  name := "relay"
  params := [.primitive .int64]
  ret := .primitive .int64
  locals := [.primitive .int64]
  body := some (number [.load (.arg 0), .store (.loc 0), .load (.loc 0),
    .call ⟨"Other", "twice", [.primitive .int64], .primitive .int64⟩, .ret])

/-- The operand that the copy is made from: a number in the register after the frame. -/
def copied : List Element := [⟨4, .word, .primitive .int64, some "arg0"⟩]

theorem fixed_window_protected_relay : ∃ c : relayCopy.Compilation {} (.ofModule ⟨"module", []⟩),
    (c.frame.calls = true ∧ c.Linked) ∧ c.route.Arrives copied ∧
    ∃ lines after, c.route.visit ⟨1, .store (.loc 0)⟩ copied (.ofModule ⟨"module", []⟩) =
      .ok (lines, after) ∧ c.frame.Protected lines (.store (.loc 0)) := by
  have hok : (relayCopy.compile {} (.ofModule ⟨"module", []⟩)).toBool = true := by decide +kernel
  obtain ⟨⟨lines, session⟩, h⟩ := exists_of_toBool hok
  obtain ⟨c, -, hc⟩ := (fixed_window_protected relayCopy {} .start).2 lines session h
  have hload : ((c.route.visit ⟨0, .load (.arg 0)⟩ [] (.ofModule ⟨"module", []⟩)).toOption.map
      fun p => p.2.stack.elems) = some copied :=
    c.parts_eq (fun frame _ => ((relayCopy.route {} frame).visit ⟨0, .load (.arg 0)⟩ []
      (.ofModule ⟨"module", []⟩)).toOption.map fun p => p.2.stack.elems) (by decide +kernel)
  have hstore : (c.route.visit ⟨1, .store (.loc 0)⟩ copied (.ofModule ⟨"module", []⟩)).toBool = true :=
    c.parts_eq (fun frame _ => ((relayCopy.route {} frame).visit ⟨1, .store (.loc 0)⟩ copied
      (.ofModule ⟨"module", []⟩)).toBool) (by decide +kernel)
  obtain ⟨⟨code, after⟩, hvisit⟩ := exists_of_toBool hstore
  have harrives : c.route.Arrives copied := by
    obtain ⟨⟨first, next⟩, hfirst, hnext⟩ := exists_of_toOption hload
    rw [← hnext]
    exact .visit .start hfirst
  refine ⟨c, ⟨c.laid.calls_eq.trans (by decide), hc⟩, harrives, code, after, hvisit, ?_⟩
  exact (fixed_window_protected relayCopy {} .start).1 c.frame c.layout c.frame_eq _ _ _ _ _ harrives hvisit

end MethodDef

end CilMmix
