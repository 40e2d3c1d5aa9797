import CilMmix.Lowering.Instruction
import CilMmix.Proofs.Outcome
import CilMmix.Proofs.Storage.Sizing

/-! The faults of the computations that lowering is made of. Without a look at the types they are only
about the register window; none is about control flow. -/

namespace CilMmix

/-- A computation without faults of control flow. -/
def Clean {α : Type} (x : Except Fault α) : Prop := ∀ fault, x = .error fault → ¬ fault.OfFlow

theorem Clean.ok {α : Type} (a : α) : Clean (.ok a) := Throws.ok a

theorem Clean.pure {α : Type} (a : α) : Clean (pure a) := Throws.pure a

theorem Clean.error {α : Type} {fault : Fault} (h : ¬ fault.OfFlow) :
    Clean (.error fault : Except Fault α) := Throws.error h

theorem Clean.bind {α β : Type} {x : Except Fault α} {f : α → Except Fault β} (hx : Clean x)
    (hf : ∀ a, Clean (f a)) : Clean (x >>= f) := Throws.bind hx hf

theorem bind_throws {σ α β : Type} {P : Fault → Prop} {x : StateT σ (Except Fault) α}
    {f : α → StateT σ (Except Fault) β} {s : σ} (hx : Throws P (x s))
    (hf : ∀ a t, x s = .ok (a, t) → Throws P (f a t)) : Throws P ((x >>= f) s) := by
  intro fault h
  change (x s >>= fun p => f p.1 p.2) = _ at h
  rcases bind_eq_error.mp h with h | ⟨⟨a, t⟩, ha, h⟩
  · exact hx fault h
  · exact hf a t ha fault h

theorem bind_clean {σ α β : Type} {x : StateT σ (Except Fault) α}
    {f : α → StateT σ (Except Fault) β} {s : σ} (hx : Clean (x s))
    (hf : ∀ a t, x s = .ok (a, t) → Clean (f a t)) : Clean ((x >>= f) s) := bind_throws hx hf

theorem lift_throws {α : Type} {P : Fault → Prop} {x : Except Fault α} (hx : Throws P x)
    (s : LowerState) : Throws P ((liftM x : Lower α) s) := by
  cases x with
  | ok a => exact .ok _
  | error fault => exact .error (hx fault rfl)

/-- The faults of the register window: it has too few registers, an index is below its first, or the frame
or the operand stack is not used as it may be. -/
def Fault.OfWindow : Fault → Prop
  | .registerExhausted _ | .indexUnderflow | .stackDiscipline _ => True
  | _ => False

theorem Fault.OfWindow.bare {fault : Fault} (h : fault.OfWindow) : fault.Bare := by
  cases fault with
  | inMethod method cause => cases h
  | _ => rfl

theorem Throws.clean {α : Type} {x : Except Fault α} (h : Throws Fault.OfWindow x) : Clean x := by
  intro fault he
  have hw := h fault he
  cases fault with
  | registerExhausted | indexUnderflow | stackDiscipline => exact id
  | _ => cases hw

theorem Reg.ofIndex_throws (n : Nat) : Throws Fault.OfWindow (Reg.ofIndex n) := by
  unfold Reg.ofIndex
  split
  · exact .ok _
  · exact .error trivial

theorem Block.elem_throws (b : Block) (index : Nat) : Throws Fault.OfWindow (b.elem index) := by
  unfold Block.elem
  split
  · exact .ok _
  · exact .error trivial

theorem Block.reg_throws (b : Block) (index word : Nat) : Throws Fault.OfWindow (b.reg index word) :=
  .bind (b.elem_throws index) fun _ => Reg.ofIndex_throws _

theorem Frame.backupReg_throws (f : Frame) : Throws Fault.OfWindow f.backupReg := by
  unfold Frame.backupReg
  split
  · have h := f.backup.reg_throws 0 0
    cases hr : f.backup.reg 0 0 with
    | ok r => exact .ok _
    | error fault => exact .error (h fault hr)
  · exact .ok _

theorem OperandStack.peek_throws (s : OperandStack) (index : Nat) : Throws Fault.OfWindow (s.peek index) := by
  unfold OperandStack.peek
  split
  · exact .ok _
  · exact .error trivial

theorem OperandStack.push_throws (s : OperandStack) (ty : TypeRef) (size : Size)
    (origin : Option String) : Throws Fault.OfWindow (s.push ty size origin) := by
  unfold OperandStack.push
  split
  · exact .ok _
  · dsimp only
    split
    · exact .error trivial
    · exact .ok _

theorem OperandStack.pop_throws (s : OperandStack) : Throws Fault.OfWindow s.pop := by
  unfold OperandStack.pop
  split
  · exact .error trivial
  · exact .bind (Reg.ofIndex_throws _) fun _ => .pure _

/-! What is made of registers faults as the naming of its registers does. -/

section

variable {P : Fault → Prop} {source dest count i scratch : Nat}

theorem copyWord_throws_of (hs : Throws P (Reg.ofIndex (source + i)))
    (hd : Throws P (Reg.ofIndex (dest + i))) : Throws P (copyWord source dest i) :=
  .bind hd fun _ => .bind hs fun _ => .pure _

theorem copyDownward_throws_of (h : ∀ k < count, Throws P (copyWord source dest k)) :
    Throws P (copyDownward source dest count).complete := by
  induction count with
  | zero => exact .ok _
  | succ count ih =>
    have ih := ih fun k hk => h k (Nat.lt_succ_of_lt hk)
    unfold copyDownward
    split
    · simp only [Draft.complete, Draft.cons] at ih ⊢
      split
      · exact .ok _
      · rename_i fault hf
        rw [hf] at ih
        exact .error (ih fault rfl)
    · rename_i fault hf
      exact .error (h count (Nat.lt_succ_self _) fault hf)

theorem copyUpward_throws_of (h : ∀ k, i ≤ k → k < i + count → Throws P (copyWord source dest k)) :
    Throws P (copyUpward source dest i count).complete := by
  induction count generalizing i with
  | zero => exact .ok _
  | succ count ih =>
    have ih := ih (i := i + 1) fun k hge hlt => h k (by omega) (by omega)
    unfold copyUpward
    split
    · simp only [Draft.complete, Draft.cons] at ih ⊢
      split
      · exact .ok _
      · rename_i fault hf
        rw [hf] at ih
        exact .error (ih fault rfl)
    · rename_i fault hf
      exact .error (h i (Nat.le_refl _) (by omega) fault hf)

theorem copyWords_throws_of (h : ∀ k < count, Throws P (copyWord source dest k)) :
    Throws P (copyWords source dest count).complete := by
  unfold copyWords
  split
  · exact .ok _
  · split
    · exact copyDownward_throws_of h
    · exact copyUpward_throws_of fun k _ hk => h k (by omega)

theorem immediate_throws_of (h : Throws P (Reg.ofIndex scratch)) (value : Nat) :
    Throws P (immediate value scratch) := by
  unfold immediate
  split
  · exact .ok _
  · exact .bind h fun _ => .pure _

theorem addNumber_throws_of (h : Throws P (Reg.ofIndex scratch)) (r : Reg) (value : Nat) :
    Throws P (addNumber r value scratch) :=
  .bind (immediate_throws_of h _) fun _ => .pure _

theorem accessAt_throws_of (h : Throws P (Reg.ofIndex scratch)) (code : Opcode) (x : Operand)
    (base : Reg) (bytes : Nat) : Throws P (accessAt code x base bytes scratch) :=
  .bind (immediate_throws_of h _) fun _ => .pure _

theorem scale_throws_of (h : Throws P (Reg.ofIndex scratch)) (r : Reg) (stride : Nat) :
    Throws P (scale r stride scratch) := by
  unfold scale
  split
  · exact .ok _
  · split
    · exact .ok _
    · exact .bind (immediate_throws_of h _) fun _ => .pure _

end

theorem copyWords_throws (source dest count : Nat) :
    Throws Fault.OfWindow (copyWords source dest count).complete :=
  copyWords_throws_of fun _ _ => copyWord_throws_of (Reg.ofIndex_throws _) (Reg.ofIndex_throws _)

theorem addNumber_throws (r : Reg) (value scratch : Nat) : Throws Fault.OfWindow (addNumber r value scratch) :=
  addNumber_throws_of (Reg.ofIndex_throws _) _ _

theorem accessAt_throws (code : Opcode) (x : Operand) (base : Reg) (bytes scratch : Nat) :
    Throws Fault.OfWindow (accessAt code x base bytes scratch) :=
  accessAt_throws_of (Reg.ofIndex_throws _) _ _ _ _

theorem scale_throws (r : Reg) (stride scratch : Nat) : Throws Fault.OfWindow (scale r stride scratch) :=
  scale_throws_of (Reg.ofIndex_throws _) _ _

end CilMmix
