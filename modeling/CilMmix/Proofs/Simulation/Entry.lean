import CilMmix.Proofs.Simulation.Store

/-! How a method begins: the return address is saved, and the arguments, which come in the first
registers, are moved to the registers of the parameters. -/

namespace CilMmix

namespace Frame

/-- The registers with the return address saved, in a method that makes calls. -/
def saved (f : Frame) (machine : Machine) : Registers :=
  if f.calls then Function.update machine.regs f.backup.offset (machine.special "rJ")
  else machine.regs

/-- The machine after the prologue. -/
def entering (f : Frame) (machine : Machine) : Machine :=
  { machine with regs := runMoves (copyPairs 0 f.params.offset f.params.words) (f.saved machine) }

theorem entering_regs (f : Frame) (machine : Machine) : (f.entering machine).regs =
    runMoves (copyPairs 0 f.params.offset f.params.words) (f.saved machine) := rfl

/-- The value that comes in for a parameter. -/
def argument (f : Frame) (r : Registers) (e : Element) : Value :=
  r.read (e.offset - f.params.offset) e.size.words

/-- The store when a method begins: variables of its own start with what their registers hold. -/
def initial (f : Frame) (r : Registers) : Store where
  args := f.params.elems.map (f.argument r)
  locals := f.locals.elems.map (·.read r)
  stack := []

namespace Laid

variable {m : MethodDef} {f : Frame}

theorem saved_of_lt (hf : f.Laid m) (machine : Machine) {k : Nat} (hk : k < f.params.words) :
    f.saved machine k = machine.regs k := by
  have hb := hf.ordered.2.1
  unfold saved
  split
  · refine Function.update_of_ne ?_ ..
    simp only [Block.stop] at hb
    omega
  · rfl

theorem entering_param (hf : f.Laid m) (machine : Machine) {k : Nat} (hk : k < f.params.words) :
    (f.entering machine).regs (f.params.offset + k) = machine.regs k := by
  rw [entering_regs, copy_inside hk, Nat.zero_add]
  exact hf.saved_of_lt machine hk

theorem read_entering (hf : f.Laid m) (machine : Machine) {e : Element}
    (he : e ∈ f.params.elems) : e.read (f.entering machine).regs = f.argument machine.regs e := by
  obtain ⟨hge, hle⟩ := hf.params.mem he
  simp only [Element.stop, Block.stop] at hle
  refine Registers.read_shift fun k hk => ?_
  have hsum : e.offset + k = f.params.offset + (e.offset - f.params.offset + k) := by omega
  rw [hsum]
  exact hf.entering_param machine (by omega)

/-- The prologue changes only registers of the parameters and that of the return address. -/
theorem entering_outside (machine : Machine) {k : Nat}
    (hk : k < f.params.offset ∨ f.params.stop ≤ k) (hcalls : f.calls = true → k ≠ f.backup.offset) :
    (f.entering machine).regs k = machine.regs k := by
  rw [entering_regs, copy_outside hk, saved]
  split
  · exact Function.update_of_ne (hcalls ‹_›) ..
  · rfl

theorem entering_backup (hf : f.Laid m) (machine : Machine) (hcalls : f.calls = true) :
    (f.entering machine).regs f.backup.offset = machine.special "rJ" := by
  rw [entering_regs, copy_outside (.inr (Nat.le_of_eq hf.ordered.2.1)), saved, if_pos hcalls,
    Function.update_self]

theorem store_entering (hf : f.Laid m) (hcalls : f.calls = false) (machine : Machine) :
    f.store [] (f.entering machine).regs = f.initial machine.regs := by
  simp only [Frame.store, Frame.initial, List.map_nil, Store.mk.injEq, and_true]
  constructor
  · exact List.map_congr_left fun e he => hf.read_entering machine he
  · refine map_read_congr fun e he k hk _ => entering_outside machine (.inr ?_) (by simp [hcalls])
    have hle := hf.backup_le
    have hlocal := hf.local_bounds he
    have hb := hf.ordered.2.1
    omega

end Laid

end Frame

/-- The line that saves the return address. -/
def saveLines : Option Reg → List Line
  | some r => [.ins .get [.reg r, .sym "rJ"]]
  | none => []

namespace MethodDef

variable {m : MethodDef} {f : Frame} {head : List Line}

theorem prologue_ok (h : m.prologue f = .ok head) : ∃ o moves, f.backupReg = .ok o ∧
    Moves (copyPairs 0 f.params.offset f.params.words) moves ∧
    head = .note (some (mangle m.name)) m.signature :: (saveLines o ++ moves) := by
  simp only [prologue, bind_eq_ok, pure_eq_ok] at h
  obtain ⟨o, hbackup, moves, hmoves, rfl⟩ := h
  exact ⟨o, moves, hbackup, copyWords_ok hmoves, rfl⟩

theorem run_saveLines (hf : f.Laid m) {o : Option Reg} (h : f.backupReg = .ok o)
    (machine : Machine) :
    run (saveLines o) machine = ({ machine with regs := f.saved machine }, .fall) := by
  rcases hf.backupReg_ok h with ⟨hc, rfl⟩ | ⟨r, hc, rfl, hr⟩
  · simp [saveLines, Frame.saved, hc]
  · simp [saveLines, Frame.saved, hc, run, Line.ins, Line.act, Opcode.act, Machine.set, hr]

theorem run_prologue (hf : f.Laid m) (h : m.prologue f = .ok head) (machine : Machine) :
    run head machine = (f.entering machine, .fall) := by
  obtain ⟨o, moves, hbackup, hmoves, rfl⟩ := prologue_ok h
  change run (saveLines o ++ moves) machine = _
  rw [run_append (run_saveLines hf hbackup machine), run_moves hmoves]
  rfl

theorem label_of_mem_prologue (h : m.prologue f = .ok head) {l : Line} (hl : l ∈ head) :
    l.label? = none ∨ l.label? = some (mangle m.name) := by
  obtain ⟨o, moves, -, hmoves, rfl⟩ := prologue_ok h
  rcases List.mem_cons.mp hl with rfl | hl
  · exact .inr rfl
  · rcases List.mem_append.mp hl with hl | hl
    · cases o with
      | none => cases hl
      | some r =>
        obtain rfl := List.mem_singleton.mp hl
        exact .inl rfl
    · obtain ⟨code, operands, rfl⟩ := hmoves.ins l hl
      exact .inl rfl

/-- No argument is overwritten before it is moved. -/
theorem prologue_readsIntact (hf : f.Laid m) (h : m.prologue f = .ok head) (machine : Machine) :
    ReadsIntact head machine := by
  obtain ⟨o, moves, hbackup, hmoves, rfl⟩ := prologue_ok h
  have hintact := hmoves.readsIntact (safeOrder_copyPairs ..)
  refine .cons rfl nofun ?_ fun _ _ _ => rfl
  rcases hf.backupReg_ok hbackup with ⟨-, rfl⟩ | ⟨r, hc, rfl, hr⟩
  · exact hintact machine
  · refine .cons rfl nofun (hintact _) fun x y hxy => ?_
    obtain ⟨p, hp, x', y', -, hy, he⟩ := hmoves.mem hxy
    obtain ⟨k, hk, rfl⟩ := mem_copyPairs hp
    cases he
    -- The sources are below the register for the return address.
    have hb : f.params.offset + f.params.words = f.backup.offset := hf.ordered.2.1
    refine Function.update_of_ne ?_ ..
    simp only at hy
    omega

end MethodDef

end CilMmix
