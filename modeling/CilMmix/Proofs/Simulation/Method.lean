import CilMmix.Proofs.Method.Pieces

/-! A compiled method follows the evaluation of its body: after any number of steps the machine is at
the code of the same instruction, with the same values in the registers of the variables and
operands. It does so exactly as long as evaluation loads no variable without words: such a value is
missing among the operands from then on. -/

namespace CilMmix

/-- The operands of an instruction have the widths that it wants: one word for a number, and that of
its place for a value that is stored or returned. -/
def Op.Fits (f : Frame) (elems : List Element) : Op → Prop
  | arith _ | compare _ | brIf _ _ => ∀ e ∈ elems.take 2, e.size.words = 1
  | neg | not | brTrue _ | brFalse _ => ∀ e ∈ elems.take 1, e.size.words = 1
  | store v => ∀ e ∈ elems.take 1, ∀ slot, (v.slot f).1.elems[(v.slot f).2]? = some slot →
      e.size.words = slot.size.words
  | ret => ∀ e ∈ elems.take 1, f.ret.elems.isEmpty = false → e.size.words = f.ret.words
  | _ => True

section

variable {f : Frame} {elems : List Element} {r : Registers}

theorem Frame.popNumber_ne_misfit (h : ∀ e ∈ elems.take 1, e.size.words = 1) :
    (f.store elems r).popNumber ≠ .error .misfit := by
  cases elems with
  | nil => nofun
  | cons e rest =>
    have he := h e (by simp)
    simp [Store.popNumber, Frame.store, Element.read_of_one he]

theorem Frame.popNumbers_ne_misfit (h : ∀ e ∈ elems.take 2, e.size.words = 1) :
    (f.store elems r).popNumbers ≠ .error .misfit := by
  match elems with
  | [] | [_] => nofun
  | e' :: e :: rest =>
    have he' := h e' (by simp)
    have he := h e (by simp)
    simp [Store.popNumbers, Frame.store, Element.read_of_one he, Element.read_of_one he']

/-- Operands that fit are never found to be misfits. -/
theorem Op.execute_ne_misfit {op : Op} (h : op.Fits f elems) :
    op.execute f.returns (f.store elems r) ≠ .error .misfit := by
  intro he
  cases op with
  | arith a =>
    simp only [execute] at he
    split at he
    · rcases bind_eq_error.mp he with he | ⟨_, _, he⟩
      · exact Frame.popNumbers_ne_misfit h he
      · cases he
    · cases he
  | compare | brIf =>
    rcases bind_eq_error.mp he with he | ⟨_, _, he⟩
    · exact Frame.popNumbers_ne_misfit h he
    · cases he
  | neg | not | brTrue | brFalse =>
    rcases bind_eq_error.mp he with he | ⟨_, _, he⟩
    · exact Frame.popNumber_ne_misfit h he
    · cases he
  | store v =>
    rw [execute, Frame.lookup?_store] at he
    cases hslot : (v.slot f).1.elems[(v.slot f).2]? with
    | none =>
      rw [hslot] at he
      cases he
    | some slot =>
      cases elems with
      | nil =>
        rw [hslot] at he
        cases he
      | cons e rest =>
        have hwords := h e (by simp) slot hslot
        simp [hslot, Frame.store, hwords] at he
  | ret =>
    cases hret : f.ret.elems.isEmpty with
    | true => simp [execute, Frame.returns, hret] at he
    | false =>
      cases elems with
      | nil => simp [execute, Frame.returns, hret, Frame.store] at he
      | cons e rest =>
        have hwords := h e (by simp) hret
        simp [execute, Frame.returns, hret, Frame.store, hwords] at he
  | load | push | dup | pop | conv =>
    simp only [execute] at he
    split at he <;> cases he
  | _ => cases he

end

theorem Frame.store_of_shape (f : Frame) {a b : List Element} (h : shape a = shape b)
    (r : Registers) : f.store a r = f.store b r := by
  have hread : ∀ elems : List Element,
      elems.map (·.read r) = (shape elems).map fun slot => r.read slot.1 slot.2 := by
    intro elems
    simp [shape, Element.read, Function.comp_def]
  rw [Frame.store, Frame.store, hread a, hread b, h]

/-- Where evaluation goes on is where control can go. -/
theorem Op.flow_of_execute {returns : Option Nat} {s s' : Store} {op : Op} {next : Option UInt32}
    (h : op.execute returns s = .ok (s', next)) :
    (next = none ∧ (op.flow = .next ∨ ∃ t, op.flow = .branch t)) ∨
      ∃ t, next = some t ∧ (op.flow = .jump t ∨ op.flow = .branch t) := by
  cases op with
  | br t =>
    cases h
    exact .inr ⟨t, rfl, .inl rfl⟩
  | brTrue t | brFalse t | brIf _ t =>
    obtain ⟨_, _, h⟩ := bind_eq_ok.mp h
    cases h
    split
    · exact .inr ⟨t, rfl, .inr rfl⟩
    · exact .inl ⟨rfl, .inr ⟨t, rfl⟩⟩
  | neg | not | compare =>
    obtain ⟨_, _, h⟩ := bind_eq_ok.mp h
    cases h
    exact .inl ⟨rfl, .inl rfl⟩
  | arith a =>
    simp only [execute] at h
    split at h
    · obtain ⟨_, _, h⟩ := bind_eq_ok.mp h
      cases h
      exact .inl ⟨rfl, .inl rfl⟩
    · cases h
  | store v =>
    simp only [execute] at h
    split at h
    · split at h
      · cases h
        exact .inl ⟨rfl, .inl rfl⟩
      · cases h
    · cases h
  | load | push | dup | pop | conv =>
    simp only [execute] at h
    split at h <;> cases h
    exact .inl ⟨rfl, .inl rfl⟩
  | nop =>
    cases h
    exact .inl ⟨rfl, .inl rfl⟩
  | ret =>
    simp only [execute] at h
    split at h
    · cases h
    · split at h <;> cases h
    · cases h
  | _ => cases h

/-- Evaluation puts a value without words on the stack. -/
theorem Op.execute_wordless {f : Frame} {op : Op} (h : ¬ op.Worded f) (returns : Option Nat)
    (elems : List Element) (r : Registers) :
    op.execute returns (f.store elems r) = .ok ((f.store elems r).push [], none) := by
  cases op with
  | load v =>
    simp only [Worded, not_forall, Nat.not_lt, Nat.le_zero] at h
    obtain ⟨e, he, hz⟩ := h
    have hread : e.read r = [] := by
      rw [Element.read, hz]
      rfl
    simp only [execute, Frame.lookup?_store, he, Option.map_some, hread]
  | _ => exact absurd trivial h

/-- There is no code for it, and the operands stay as they are. -/
theorem Lower.instruction_wordless {site : Site} {i : Instruction} {s t : LowerState} {code : List Line}
    (h : ¬ i.op.Worded site.frame) (hcode : instruction site i s = .ok (code, t)) :
    code = [] ∧ t = s := by
  obtain ⟨offset, op⟩ := i
  cases op with
  | load v =>
    obtain ⟨e, he, ⟨-, hnone⟩ | ⟨hpos, -⟩⟩ := loadSlot_ok hcode
    · exact hnone
    · refine absurd (fun e' he' => ?_) h
      cases he.symm.trans he'
      exact hpos
  | _ => exact absurd trivial h

namespace MethodDef.Compilation

variable {m : MethodDef} {options : Options} {session : Session}

/-- Every instruction that was reached finds operands of the widths that it wants. -/
def Fits (c : m.Compilation options session) : Prop :=
  ∀ i instruction v, m.code[i]? = some instruction → c.visit? i = some v →
    instruction.op.Fits c.frame v.arrival

/-- The machine does what evaluation says, from the first line of the method on: it comes to the code
of the instruction that is next, with the values of the store in the registers of the variables and of
the operands; or to the end of the method with its result; or past its last instruction. Misfits there
are only in a method that has them by its types. -/
def Simulates (c : m.Compilation options session) (machine : Machine) : Except Halt State → Prop
  | .ok s => ∃ v after, c.visit? s.index = some v ∧
      Reaches c.lines (0, machine) (c.entry s.index, after) ∧
      s.toStore = c.frame.store v.arrival after.regs
  | .error (.returned v) => ∃ p line after, Reaches c.lines (0, machine) (p, after) ∧
      c.lines[p]? = some line ∧ c.route.site.Exits v line.unlabel after
  | .error .overrun => ∃ after, Reaches c.lines (0, machine) (c.start m.code.length, after)
  | .error .misfit => ¬ c.Fits
  | .error .stuck => False

/-- The next instruction loads a variable without words, and is not the last one. -/
def Drops (c : m.Compilation options session) (s : State) : Prop :=
  s.index + 1 < m.code.length ∧ ∃ i, m.code[s.index]? = some i ∧ ¬ i.op.Worded c.frame

theorem not_drops {c : m.Compilation options session}
    (h : ∀ e ∈ c.frame.params.elems ++ c.frame.locals.elems, 0 < e.size.words) (s : State) :
    ¬ c.Drops s := by
  rintro ⟨-, i, -, hw⟩
  apply hw
  cases i.op with
  | load v =>
    intro e he
    have hmem := List.mem_of_getElem? he
    cases v with
    | arg => exact h e (List.mem_append_left _ hmem)
    | loc => exact h e (List.mem_append_right _ hmem)
  | _ => trivial

/-- After a load of no words the next instruction finds the operands that the load found. -/
theorem visit_wordless {c : m.Compilation options session} {i : Nat} {v : Visit}
    {instruction : Instruction} (hv : c.visit? i = some v) (hi : m.code[i]? = some instruction)
    (hw : ¬ instruction.op.Worded c.frame) :
    v.lines = piece options.annotate (c.route.label? instruction.offset) instruction [] ∧
      (i + 1 < m.code.length →
        ∃ w, c.visit? (i + 1) = some w ∧ shape w.arrival = shape v.arrival) := by
  obtain ⟨-, instruction', σ, after, hi', -, hvisit, hnext⟩ := c.covers_operands.visit_spec hv
  cases hi.symm.trans hi'
  obtain ⟨code, hcode, hlines⟩ := Route.visit_ok.mp hvisit
  obtain ⟨rfl, rfl⟩ := Lower.instruction_wordless hw hcode
  have hflow : instruction.op.flow = .next := by
    cases hop : instruction.op with
    | load => rfl
    | _ =>
      rw [hop] at hw
      exact absurd trivial hw
  exact ⟨hlines, hnext _ (edge_succ hi (.inl hflow) c.target)⟩

/-- Evaluation then has an operand more than the machine. -/
theorem not_simulates_step {c : m.Compilation options session} {machine : Machine} {s : State}
    (h : c.Simulates machine (.ok s)) (hdrops : c.Drops s) :
    ¬ c.Simulates machine (s.step m.code c.frame.returns) := by
  obtain ⟨v, after, hv, -, hstore⟩ := h
  obtain ⟨hlt, i, hi, hw⟩ := hdrops
  have hexec := Op.execute_wordless hw c.frame.returns v.arrival after.regs
  rw [← hstore] at hexec
  have hstep : s.step m.code c.frame.returns = .ok { s.push [] with index := s.index + 1 } := by
    simp only [State.step, hi, hexec, bind, Except.bind]
    exact if_pos hlt
  rw [hstep]
  rintro ⟨v', after', hv', -, hstore'⟩
  obtain ⟨w, hw', hshape⟩ := (visit_wordless hv hi hw).2 hlt
  cases hv'.symm.trans hw'
  have hbefore : s.stack.length = v.arrival.length := by
    rw [hstore]
    exact List.length_map ..
  have hafter : s.stack.length + 1 = v'.arrival.length := by
    have hlen := congrArg (fun store : Store => store.stack.length) hstore'
    exact hlen.trans (List.length_map ..)
  have hsame : v'.arrival.length = v.arrival.length := by
    simpa [shape] using congrArg List.length hshape
  omega

section

variable {c : m.Compilation options session} (hscalar : ∀ i ∈ m.code, i.op.isScalar = true)
include hscalar

theorem realized {i : Nat} {v : Visit} (hv : c.visit? i = some v) :
    ∃ instruction code s after, m.code[i]? = some instruction ∧ s.stack.elems = v.arrival ∧
      v.lines = piece options.annotate (c.route.label? instruction.offset) instruction code ∧
      Realizes c.route.site s after code instruction.op ∧
      ∀ j, Edge m.code i j → j < m.code.length →
        ∃ w, c.visit? j = some w ∧ shape w.arrival = shape after.stack.elems := by
  obtain ⟨hs, instruction, σ, after, hi, -, hvisit, hnext⟩ := c.covers_operands.visit_spec hv
  obtain ⟨code, hcode, hlines⟩ := Route.visit_ok.mp hvisit
  have hop := hscalar instruction (List.mem_of_getElem? hi)
  exact ⟨instruction, code, _, after, hi, rfl, hlines,
    Lower.realizes_instruction c.laid rfl hs hop hcode, hnext⟩

theorem simulates_next {i : Nat} {elems : List Element} {machine after : Machine} {store : Store}
    (hreach : Reaches c.lines (0, machine) (c.start i, after))
    (hstore : store = c.frame.store elems after.regs)
    (hnext : i < m.code.length → ∃ w, c.visit? i = some w ∧ shape w.arrival = shape elems)
    (hi : i ≤ m.code.length) : c.Simulates machine (State.goto m.code store i) := by
  unfold State.goto
  split
  · rename_i hlt
    obtain ⟨w, hw, hs⟩ := hnext hlt
    obtain ⟨instruction, code, _, _, -, -, hlines, hreal, -⟩ := realized hscalar hw
    refine ⟨w, after, hw, hreach.trans (reaches_entry hw hlines hreal.isCode after), ?_⟩
    rw [c.frame.store_of_shape hs]
    exact hstore
  · obtain rfl : i = m.code.length := by omega
    exact ⟨after, hreach⟩

theorem simulates_step (hoffsets : (m.code.map Instruction.offset).Nodup) {machine : Machine}
    {s : State} (h : c.Simulates machine (.ok s)) (hdrops : ¬ c.Drops s) :
    c.Simulates machine (s.step m.code c.frame.returns) := by
  obtain ⟨v, after, hv, hreach, hstore⟩ := h
  obtain ⟨instruction, code, s₀, s₁, hi, helems, hlines, hreal, hnext⟩ := realized hscalar hv
  by_cases hworded : ¬ instruction.op.Worded c.frame
  · -- The load is the last instruction, so that nothing is left to take a wrong operand.
    have hlast : ¬ s.index + 1 < m.code.length := fun hlt => hdrops ⟨hlt, instruction, hi, hworded⟩
    have hle : s.index < m.code.length := (List.getElem?_eq_some_iff.mp hi).1
    have hexec := Op.execute_wordless hworded c.frame.returns v.arrival after.regs
    rw [← hstore] at hexec
    simp only [State.step, hi, hexec, bind, Except.bind, State.goto, if_neg hlast]
    have hend : s.index + 1 = m.code.length := by omega
    have hp : Reaches _ _ _ := leads_visit hv (visit_wordless hv hi hworded).1
      (Line.isCode_of_ins nofun) (run_nil after)
    exact ⟨after, hreach.trans (hend ▸ hp)⟩
  rw [not_not] at hworded
  have hsim := hreal.simulates hworded after
  rw [helems] at hsim
  change Simulated c.route.site s₁.stack.elems code after (instruction.op.execute c.frame.returns
    (c.frame.store v.arrival after.regs)) at hsim
  rw [← hstore] at hsim
  cases hexec : instruction.op.execute c.frame.returns s.toStore with
  | error halt =>
    rw [hexec] at hsim
    simp only [State.step, hi, hexec, bind, Except.bind]
    cases halt with
    | returned x =>
      obtain ⟨after', line, hrun, hexits⟩ := hsim
      obtain ⟨p, l, hp, hl, hline⟩ := leads_visit hv hlines hreal.isCode hrun
      exact ⟨p, l, after', hreach.trans hp, hl, hline ▸ hexits.unlabel⟩
    | overrun | stuck => exact hsim.elim
    | misfit =>
      rw [hstore] at hexec
      exact fun hfits => Op.execute_ne_misfit (hfits _ instruction v hi hv) hexec
  | ok out =>
    obtain ⟨store, next⟩ := out
    rw [hexec] at hsim
    simp only [State.step, hi, hexec, bind, Except.bind]
    rcases Op.flow_of_execute hexec with ⟨rfl, hflow⟩ | ⟨t, rfl, hflow⟩
    · obtain ⟨after', hrun, hstore'⟩ := hsim
      have hp : Reaches _ _ _ := leads_visit hv hlines hreal.isCode hrun
      exact simulates_next hscalar (hreach.trans hp) hstore' (hnext _ (edge_succ hi hflow c.target))
        (List.getElem?_eq_some_iff.mp hi).1
    · obtain ⟨after', hrun, hstore'⟩ := hsim
      obtain ⟨j, hj⟩ := c.target t (mem_targets hi hflow)
      obtain ⟨target, htarget, rfl⟩ := position?_eq_some (position_eq_ok hj)
      have hlt := (List.getElem?_eq_some_iff.mp htarget).1
      obtain ⟨w, hw, hs⟩ := hnext j (edge_of_position hi hflow hj) hlt
      -- Offsets are distinct, so the label leads to this piece and to no earlier one.
      have hlabel := c.coded.target?_eq hoffsets hw htarget (mem_targets hi hflow)
      have hp := leads_visit hv hlines hreal.isCode hrun (c.entry j) hlabel
      have hgoto : State.goto m.code store j = .ok { store with index := j } := if_pos hlt
      simp only [position_eq_ok hj, hgoto]
      exact ⟨w, after', hw, hreach.trans hp, by rw [c.frame.store_of_shape hs]; exact hstore'⟩

theorem simulates_initial (machine : Machine) :
    c.Simulates machine (State.goto m.code (c.frame.initial machine.regs) 0) := by
  have hcalls : c.frame.calls = false := by
    rw [c.laid.calls_eq, List.any_eq_false]
    exact fun i hi => Bool.not_eq_true _ ▸ Op.isCall_of_isScalar (hscalar i hi)
  exact simulates_next hscalar (c.reaches_start machine) (c.laid.store_entering hcalls machine).symm
    c.covers_operands.visit?_zero (Nat.zero_le _)

theorem simulates_evaluate (hoffsets : (m.code.map Instruction.offset).Nodup) {machine : Machine}
    (hdrops : ∀ n s, evaluate m.code c.frame.returns (c.frame.initial machine.regs) n = .ok s →
      ¬ c.Drops s) (n : Nat) :
    c.Simulates machine (evaluate m.code c.frame.returns (c.frame.initial machine.regs) n) := by
  induction n with
  | zero => exact simulates_initial hscalar machine
  | succ n ih =>
    rw [evaluate]
    cases he : evaluate m.code c.frame.returns (c.frame.initial machine.regs) n with
    | error halt =>
      rw [he] at ih
      exact ih
    | ok s =>
      rw [he] at ih
      exact simulates_step hscalar hoffsets ih (hdrops n s he)

theorem simulates_iff (hoffsets : (m.code.map Instruction.offset).Nodup) (machine : Machine) :
    (∀ n, c.Simulates machine
        (evaluate m.code c.frame.returns (c.frame.initial machine.regs) n)) ↔
      ∀ n s, evaluate m.code c.frame.returns (c.frame.initial machine.regs) n = .ok s →
        ¬ c.Drops s := by
  refine ⟨fun hall n s he hdrops => ?_, simulates_evaluate hscalar hoffsets⟩
  have hnow := hall n
  have hthen := hall (n + 1)
  rw [evaluate, he] at hthen
  rw [he] at hnow
  exact not_simulates_step hnow hdrops hthen

end

end MethodDef.Compilation

/-- A compiled method of scalar instructions follows the evaluation of its body if its variables have
words, and otherwise exactly until one without words is loaded that is not the last instruction. -/
theorem MethodDef.compile_simulates {m : MethodDef} {options : Options} {session session' : Session}
    {lines : List Line} (h : m.compile options session = .ok (lines, session'))
    (hscalar : ∀ i ∈ m.code, i.op.isScalar = true)
    (hoffsets : (m.code.map Instruction.offset).Nodup) :
    ∃ c : m.Compilation options session, c.lines = lines ∧
      ((∀ e ∈ c.frame.params.elems ++ c.frame.locals.elems, 0 < e.size.words) →
        ∀ machine n, c.Simulates machine
          (evaluate m.code c.frame.returns (c.frame.initial machine.regs) n)) ∧
      ∀ machine, (∀ n, c.Simulates machine
          (evaluate m.code c.frame.returns (c.frame.initial machine.regs) n)) ↔
        ∀ n s, evaluate m.code c.frame.returns (c.frame.initial machine.regs) n = .ok s →
          ¬ c.Drops s := by
  obtain ⟨c, hlines, -⟩ := compile_ok.mp h
  refine ⟨c, hlines, fun hwords machine => ?_, fun machine => c.simulates_iff hscalar hoffsets machine⟩
  exact (c.simulates_iff hscalar hoffsets machine).mpr fun _ s _ => Compilation.not_drops hwords s

/-- Adds the numbers from its argument down to one. -/
def MethodDef.triangle : MethodDef where
  name := "triangle"
  params := [.primitive .int64]
  locals := [.primitive .int64]
  ret := .primitive .int64
  body := some (number [.push (.int64 0), .store (.loc 0), .load (.arg 0), .brFalse 13,
    .load (.loc 0), .load (.arg 0), .arith .add, .store (.loc 0), .load (.arg 0), .push (.int64 1),
    .arith .sub, .store (.arg 0), .br 2, .load (.loc 0), .ret])

theorem MethodDef.compile_simulates_triangle :
    ∃ c : triangle.Compilation {} (.ofModule ⟨"module", []⟩), ∀ machine n, c.Simulates machine
      (evaluate triangle.code c.frame.returns (c.frame.initial machine.regs) n) := by
  have hok : (triangle.compile {} (.ofModule ⟨"module", []⟩)).toBool = true := by decide +kernel
  obtain ⟨⟨lines, session'⟩, h⟩ := exists_of_toBool hok
  obtain ⟨c, -, hc, -⟩ := compile_simulates h (by decide) (by decide)
  have hwords := c.parts_eq (fun frame _ =>
    (frame.params.elems ++ frame.locals.elems).all fun e => decide (0 < e.size.words)) (a := true)
    (by decide +kernel)
  exact ⟨c, hc fun e he => of_decide_eq_true (List.all_eq_true.mp hwords e he)⟩

example : evaluate MethodDef.triangle.code (some 1) ⟨[[3]], [[7]], []⟩ 40 =
    .error (.returned [6]) := by rfl

/-- Loads an argument without words above a seven and a five, takes it off, and returns the five. -/
def MethodDef.five : MethodDef where
  name := "five"
  params := [.named "Unit"]
  ret := .primitive .int32
  body := some (number [.push (.int32 7), .push (.int32 5), .load (.arg 0), .pop, .ret])

/-- Only the return wants an operand of a certain width. -/
theorem MethodDef.fits_five (c : five.Compilation {} (.ofModule hollow)) : c.Fits := by
  have hwidths := c.parts_eq (fun frame walk => (walk.stops[4]?.bind Stop.visit).map fun v =>
    (v.arrival.map (·.size.words), frame.ret.words)) (a := some ([1], 1)) (by decide +kernel)
  obtain ⟨last, hlast, hwidths⟩ := Option.map_eq_some_iff.mp hwidths
  obtain ⟨harrival, hret⟩ := Prod.mk.inj hwidths
  intro i instruction v hi hv
  rcases i with _ | _ | _ | _ | _ | i
  case succ.succ.succ.succ.zero =>
    cases hi
    cases hv.symm.trans hlast
    intro e he _
    have hmem : e.size.words ∈ [1] := harrival ▸ List.mem_map_of_mem (List.mem_of_mem_take he)
    rw [hret]
    exact List.mem_singleton.mp hmem
  case succ.succ.succ.succ.succ => cases hi
  all_goals
    cases hi
    trivial

/-- Its code returns the seven. -/
theorem MethodDef.five_returns_seven :
    (∀ i ∈ five.code, i.op.isScalar = true) ∧ (five.code.map Instruction.offset).Nodup ∧
    ∃ c : five.Compilation {} (.ofModule hollow), c.Fits ∧
      evaluate five.code c.frame.returns (c.frame.initial fun _ => 0) 5 = .error (.returned [5]) ∧
      ∃ m, run c.lines ⟨fun _ => 0, fun _ => 0⟩ = (m, .stop (.ins .pop [.imm 1, .imm 0])) ∧
        m.regs.handed 1 = [7] := by
  have hok : (five.compile {} (.ofModule hollow)).toBool = true := by decide +kernel
  obtain ⟨result, h⟩ := exists_of_toBool hok
  obtain ⟨c, hlines, -⟩ := compile_ok.mp h
  refine ⟨by decide, by decide, c, fits_five c, ?_, ?_⟩
  · have hstart := c.parts_eq (fun frame _ => (frame.returns, frame.params.elems.map (·.size.words),
      frame.locals.elems)) (a := (some 1, [0], [])) (by decide +kernel)
    simp only [Prod.mk.injEq] at hstart
    obtain ⟨hreturns, hparams, hlocals⟩ := hstart
    obtain ⟨e, he, hwords⟩ := List.map_eq_singleton_iff.mp hparams
    have hinitial : c.frame.initial (fun _ => 0) = ⟨[[]], [], []⟩ := by
      simp [Frame.initial, he, hlocals, Frame.argument, hwords, Registers.read]
    rw [hreturns, hinitial]
    rfl
  · have hrun : (five.compile {} (.ofModule hollow)).toOption.map (fun r =>
        ((run r.1 ⟨fun _ => 0, fun _ => 0⟩).2, (run r.1 ⟨fun _ => 0, fun _ => 0⟩).1.regs.handed 1)) =
        some (.stop (.ins .pop [.imm 1, .imm 0]), [7]) := by decide +kernel
    rw [h] at hrun
    obtain ⟨hexit, hhanded⟩ := Prod.mk.inj (Option.some.inj hrun)
    rw [hlines]
    exact ⟨_, Prod.ext rfl hexit, hhanded⟩

end CilMmix
