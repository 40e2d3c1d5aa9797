import CilMmix.Proofs.Assembly.Piece
import CilMmix.Proofs.Lowering.Steps
import CilMmix.Proofs.Machine.Constant
import CilMmix.Proofs.Machine.Windows
import CilMmix.Proofs.Simulation.Store

/-! The code of single instructions, run on the machine, does what the instructions do to the store. -/

namespace CilMmix

/-- The words that a method returns, unless it returns nothing. -/
def Frame.returns (f : Frame) : Option Nat := if f.ret.elems.isEmpty then none else some f.ret.words

/-- How a method ends with a value: at the trap that stops the machine, or at a return with the value
in the registers that it hands over. -/
def Site.Exits (site : Site) (v : Value) (line : Line) (machine : Machine) : Prop :=
  if site.frame.ret.elems.isEmpty && site.halts then
    line = .ins .trap [.imm 0, .sym "Halt", .imm 0] ∧ machine.regs 255 = 0 ∧ v = []
  else line = .ins .pop [.imm v.length, .imm 0] ∧ machine.regs.handed v.length = v

theorem Site.Exits.unlabel {site : Site} {v : Value} {line : Line} {machine : Machine}
    (h : site.Exits v line machine) : site.Exits v line.unlabel machine := by
  have hline : line.unlabel = line := by
    unfold Exits at h
    split at h <;> rw [h.1] <;> rfl
  rw [hline]
  exact h

/-- Running code does what evaluation says, with the operands afterwards in their registers. -/
def Simulated (site : Site) (elems : List Element) (code : List Line) (machine : Machine) :
    Except Halt (Store × Option UInt32) → Prop
  | .ok (store, none) =>
    ∃ after, run code machine = (after, .fall) ∧ store = site.frame.store elems after.regs
  | .ok (store, some t) => ∃ after, run code machine = (after, .jump (site.branchLabel t)) ∧
      store = site.frame.store elems after.regs
  | .error (.returned v) => ∃ after line, run code machine = (after, .stop line) ∧
      site.Exits v line after
  | .error .misfit => True
  | .error .overrun | .error .stuck => False

/-- A variable that an instruction loads has words. There is no trace of one without words among the
operands, and the next instruction would take another operand for it. -/
def Op.Worded (f : Frame) : Op → Prop
  | load v => ∀ e, (v.slot f).1.elems[(v.slot f).2]? = some e → 0 < e.size.words
  | _ => True

/-- Code for an instruction that takes one state of the operands to another. -/
structure Realizes (site : Site) (s t : LowerState) (code : List Line) (op : Op) : Prop where
  stacked : Shape.Stacked site.frame.stop (shape t.stack.elems)
  isCode : Line.IsCode code
  simulates : op.Worded site.frame → ∀ machine, Simulated site t.stack.elems code machine
    (op.execute site.frame.returns (site.frame.store s.stack.elems machine.regs))

theorem Realizes.of_ins {site : Site} {s t : LowerState} {code : List Line} {op : Op}
    (hs : Shape.Stacked site.frame.stop (shape t.stack.elems))
    (hcode : ∀ l ∈ code, ∃ c operands, l = Line.ins c operands)
    (hsim : ∀ machine, Simulated site t.stack.elems code machine
      (op.execute site.frame.returns (site.frame.store s.stack.elems machine.regs))) :
    Realizes site s t code op where
  stacked := hs
  isCode := Line.isCode_of_ins hcode
  simulates _ := hsim

namespace Lower

variable {site : Site} {m : MethodDef} {s t : LowerState} {code : List Line}

theorem loadSlot_ok {b : Block} {index : Nat} (h : loadSlot b index s = .ok (code, t)) :
    ∃ e, b.elems[index]? = some e ∧
      ((e.size.words = 0 ∧ code = [] ∧ t = s) ∨
        (0 < e.size.words ∧
          Shape.top s.stack.base (shape s.stack.elems) + e.size.words ≤ registerCount ∧
          t = s.withElems (⟨Shape.top s.stack.base (shape s.stack.elems), e.size, e.ty, e.origin⟩ ::
            s.stack.elems) ∧
          Moves ((List.range e.size.words).map fun k =>
            (Shape.top s.stack.base (shape s.stack.elems) + k, e.offset + k)) code)) := by
  simp only [loadSlot, bind_ok, lift_ok, Block.elem_ok] at h
  obtain ⟨e, _, ⟨he, rfl⟩, _, s₁, hpush, hcode⟩ := h
  refine ⟨e, he, ?_⟩
  have hkeep : ∀ word s₁ line s₂, (do
      let into ← operand 0 word
      let value ← b.reg index word
      return .ins .set [.reg into, .reg value] : Lower Line) s₁ = .ok (line, s₂) → s₂ = s₁ ∧
      ∃ top, s₁.stack.elems[0]? = some top ∧ line.IsMove (top.offset + word, e.offset + word) := by
    intro word s₁ line s₂ h
    simp only [bind_ok, operand_ok, lift_ok, pure_ok, Block.reg_ok] at h
    obtain ⟨x, _, ⟨⟨top, htop, hx⟩, rfl⟩, y, _, ⟨⟨e', he', hy⟩, rfl⟩, rfl, rfl⟩ := h
    cases he.symm.trans he'
    exact ⟨rfl, top, htop, x, y, hx, hy, rfl⟩
  obtain ⟨rfl, hall⟩ := mapM_ok (fun a t b t' h => (hkeep a t b t' h).1) hcode
  rcases pushSized_ok.mp hpush with ⟨hz, rfl⟩ | ⟨hpos, hfit, rfl⟩
  · rw [hz] at hall
    cases hall
    exact .inl ⟨hz, rfl, rfl⟩
  · refine .inr ⟨hpos, hfit, rfl, List.forall₂_map_left_iff.mpr (hall.imp fun word line hline => ?_)⟩
    obtain ⟨-, top, htop, hmove⟩ := hkeep _ _ _ _ hline
    cases htop
    exact hmove

theorem realizes_load (hf : site.frame.Laid m) (hb : s.stack.base = site.frame.stop)
    (hs : Shape.Stacked site.frame.stop (shape s.stack.elems)) {v : Variable}
    (h : loadSlot (v.slot site.frame).1 (v.slot site.frame).2 s = .ok (code, t)) :
    Realizes site s t code (.load v) := by
  obtain ⟨e, he, ⟨hz, rfl, rfl⟩ | ⟨hpos, hfit, rfl, hmoves⟩⟩ := loadSlot_ok h
  · exact ⟨hs, Line.isCode_of_ins nofun, fun hworded => absurd hz (Nat.ne_of_gt (hworded e he))⟩
  · rw [hb] at hfit hmoves ⊢
    have hnew : Shape.Stacked site.frame.stop (shape (⟨Shape.top site.frame.stop (shape s.stack.elems),
        e.size, e.ty, e.origin⟩ :: s.stack.elems)) := ⟨rfl, hpos, hfit, hs⟩
    refine .of_ins hnew hmoves.ins fun machine => ?_
    simp only [Op.execute, Frame.lookup?_store, he, Option.map_some]
    refine ⟨_, run_moves hmoves machine, ?_⟩
    rw [LowerState.withElems_elems, hf.store_push (r := machine.regs) hnew
      fun k hk => apart_outside (.inl hk) _]
    -- The new registers are apart from those of the variable.
    exact congrArg _ (read_apart (.inl (Nat.le_trans (hf.slot_le he) hs.base_le_top)) _).symm

theorem storeSlot_ok {b : Block} {index : Nat} (h : storeSlot b index s = .ok (code, t)) :
    ∃ e top rest, b.elems[index]? = some e ∧ s.stack.elems = top :: rest ∧ t = s.withElems rest ∧
      Moves ((List.range e.size.words).map fun k => (e.offset + k, top.offset + k)) code := by
  simp only [storeSlot, bind_ok, lift_ok, pure_ok, Block.elem_ok, pop_ok] at h
  obtain ⟨e, _, ⟨he, rfl⟩, lines, s₁, hlines, _, _, ⟨top, rest, helems, -, rfl⟩, rfl, rfl⟩ := h
  have hkeep : ∀ word s₁ line s₂, (do
      let into ← b.reg index word
      let value ← operand 0 word
      return .ins .set [.reg into, .reg value] : Lower Line) s₁ = .ok (line, s₂) → s₂ = s₁ ∧
      ∃ top, s₁.stack.elems[0]? = some top ∧ line.IsMove (e.offset + word, top.offset + word) := by
    intro word s₁ line s₂ h
    simp only [bind_ok, operand_ok, lift_ok, pure_ok, Block.reg_ok] at h
    obtain ⟨x, _, ⟨⟨e', he', hx⟩, rfl⟩, y, _, ⟨⟨top, htop, hy⟩, rfl⟩, rfl, rfl⟩ := h
    cases he.symm.trans he'
    exact ⟨rfl, top, htop, x, y, hx, hy, rfl⟩
  obtain ⟨rfl, hall⟩ := mapM_ok (fun a t b t' h => (hkeep a t b t' h).1) hlines
  refine ⟨e, top, rest, he, helems, rfl, List.forall₂_map_left_iff.mpr (hall.imp fun word line hline => ?_)⟩
  obtain ⟨-, top', htop, hmove⟩ := hkeep _ _ _ _ hline
  rw [helems] at htop
  cases htop
  exact hmove

theorem realizes_store (hf : site.frame.Laid m)
    (hs : Shape.Stacked site.frame.stop (shape s.stack.elems)) {v : Variable}
    (h : storeSlot (v.slot site.frame).1 (v.slot site.frame).2 s = .ok (code, t)) :
    Realizes site s t code (.store v) := by
  obtain ⟨e, top, rest, he, helems, rfl, hmoves⟩ := storeSlot_ok h
  rw [helems] at hs
  refine .of_ins hs.tail hmoves.ins fun machine => ?_
  simp only [Op.execute, Frame.lookup?_store, he, Option.map_some, helems]
  change Simulated _ _ _ _ (if (top.read machine.regs).length = (e.read machine.regs).length then
    .ok ((site.frame.store rest machine.regs).setVariable (top.read machine.regs) v, none)
    else .error .misfit)
  split
  · rename_i hlen
    simp only [Element.length_read] at hlen
    refine ⟨_, run_moves hmoves machine, ?_⟩
    have hle := hf.slot_le he
    have hge := (hs.mem List.mem_cons_self).1
    simp only [Element.stop] at hle hge
    rw [LowerState.withElems_elems, hf.store_setVariable hs.tail he
      fun k hk => apart_outside hk _]
    refine congrArg (Store.setVariable _ · v) ?_
    rw [Element.read, Element.read, hlen]
    exact (read_apart (.inr (by omega)) _).symm
  · trivial

theorem realizes_constant (hf : site.frame.Laid m) (hb : s.stack.base = site.frame.stop)
    (hs : Shape.Stacked site.frame.stop (shape s.stack.elems)) {origin : String} {p : Primitive}
    (hp : p.size.words = 1) {value : UInt64} {l : Literal} (hl : l.word? = some value.toBitVec)
    (h : constant origin (.primitive p) value s = .ok (code, t)) :
    Realizes site s t code (.push l) := by
  simp only [constant, bind_ok, pure_ok, push_primitive_ok hp, operand_ok] at h
  obtain ⟨_, _, ⟨hfit, rfl⟩, r, _, ⟨⟨e, he, hr⟩, rfl⟩, rfl, rfl⟩ := h
  cases he
  rw [hb] at hfit hr ⊢
  have hnew : Shape.Stacked site.frame.stop (shape (⟨Shape.top site.frame.stop (shape s.stack.elems),
      p.size, .primitive p, some origin⟩ :: s.stack.elems)) :=
    hs.number rfl hp hfit
  refine .of_ins hnew (fun _ => loadConstant_ins) fun machine => ?_
  simp only [Op.execute, hl]
  refine ⟨_, run_loadConstant r value machine, ?_⟩
  rw [LowerState.withElems_elems, Machine.set_regs, hr]
  exact (hf.store_set hnew hp _ _).symm

theorem realizes_literal (hf : site.frame.Laid m) (hb : s.stack.base = site.frame.stop)
    (hs : Shape.Stacked site.frame.stop (shape s.stack.elems)) {i : Instruction} {l : Literal}
    (hl : (Op.push l).isScalar = true) (h : literalValue i l s = .ok (code, t)) :
    Realizes site s t code (.push l) := by
  cases l with
  | null => exact realizes_constant hf hb hs rfl rfl h
  | int32 n => exact realizes_constant hf hb hs rfl (by simp [Literal.word?]) h
  | int64 n => exact realizes_constant hf hb hs rfl (by simp [Literal.word?]) h
  | str | real32 | real64 => cases hl

theorem realizes_dup (hf : site.frame.Laid m) (hb : s.stack.base = site.frame.stop)
    (hs : Shape.Stacked site.frame.stop (shape s.stack.elems))
    (h : duplicate s = .ok (code, t)) : Realizes site s t code .dup := by
  simp only [duplicate, bind_ok, pure_ok, peek_ok, lift_ok] at h
  obtain ⟨e, s, ⟨he, rfl⟩, lines, s, ⟨hcopy, rfl⟩, _, t, hpush, rfl, rfl⟩ := h
  have hmoves := copyWords_ok hcopy
  cases helems : s.stack.elems with
  | nil => simp [helems] at he
  | cons x rest =>
    rw [helems] at he hs
    cases he
    have hpos : 0 < e.size.words := hs.2.1
    rcases pushSized_ok.mp hpush with ⟨hz, -⟩ | ⟨-, hfit, rfl⟩
    · omega
    · rw [hb, helems] at hfit ⊢
      have hnew : Shape.Stacked site.frame.stop
          (shape (⟨e.stop, e.size, e.ty, e.origin⟩ :: e :: rest)) := ⟨rfl, hpos, hfit, hs⟩
      refine .of_ins hnew hmoves.ins fun machine => ?_
      simp only [Op.execute, helems]
      refine ⟨_, run_moves hmoves machine, ?_⟩
      rw [LowerState.withElems_elems]
      refine Eq.trans ?_ (hf.store_push (r := machine.regs) hnew
        fun k hk => copy_outside (.inl hk) _).symm
      exact congrArg _ (read_copy _ _ _ _).symm

theorem realizes_pop (hs : Shape.Stacked site.frame.stop (shape s.stack.elems))
    (h : (do let _ ← pop; return [] : Lower (List Line)) s = .ok (code, t)) :
    Realizes site s t code .pop := by
  simp only [bind_ok, pure_ok, pop_ok] at h
  obtain ⟨_, t, ⟨e, rest, helems, -, rfl⟩, rfl, rfl⟩ := h
  rw [helems] at hs
  refine .of_ins hs.tail nofun fun machine => ?_
  simp only [Op.execute, helems]
  exact ⟨machine, rfl, rfl⟩

end Lower

end CilMmix
