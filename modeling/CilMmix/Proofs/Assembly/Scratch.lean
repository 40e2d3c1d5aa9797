import CilMmix.Proofs.Assembly.Written
import CilMmix.Proofs.Machine.Moves

/-! The registers that a line reads, and the order of reads and writes in code. A register that holds an
operand may be overwritten by a line that reads it, or after all lines that do. -/

namespace CilMmix

namespace Opcode

/-- Operations that add to what is in the register they name first. -/
def completes : Opcode → Bool
  | orl | orml | ormh | orh => true
  | _ => false

/-- The operation names register `k` and reads it. A subroutine call reads none of those it names. -/
def Reads (k : Nat) : Opcode → List Operand → Prop
  | pushj, _ => False
  | code, .reg x :: ys => (code.spares = true ∨ code.completes = true) ∧ k = x.index.val ∨
      ∃ y : Reg, .reg y ∈ ys ∧ k = y.index.val
  | _, ys => ∃ y : Reg, .reg y ∈ ys ∧ k = y.index.val

theorem reads_of_mem {code : Opcode} (h : code ≠ pushj) {k : Nat} {x y : Reg} {ys : List Operand}
    (hy : .reg y ∈ ys) (hk : k = y.index.val) : code.Reads k (.reg x :: ys) := by
  have hreads : (code.spares = true ∨ code.completes = true) ∧ k = x.index.val ∨
      ∃ y : Reg, .reg y ∈ ys ∧ k = y.index.val := .inr ⟨y, hy, hk⟩
  cases code with
  | pushj => exact absurd rfl h
  | _ => exact hreads

end Opcode

namespace Line

def Reads (k : Nat) : Line → Prop
  | op _ code operands => code.Reads k operands
  | _ => False

/-- The line puts something new into register `k`. -/
def Sets (k : Nat) (l : Line) : Prop := l.Writes k ∧ ¬ l.Reads k

/-- None of these registers is set anew before a line that still reads it. -/
def InTime (used : Nat → Prop) (lines : List Line) : Prop :=
  ∀ k, used k → lines.Pairwise fun l l' => l.Sets k → ¬ l'.Reads k

/-- The line does not set any of these registers anew. -/
def Minds (used : Nat → Prop) (l : Line) : Prop := ∀ k, used k → l.Writes k → l.Reads k

variable {used : Nat → Prop} {a b lines : List Line} {code : Opcode} {x : Reg} {ys operands : List Operand}

theorem inTime_append (ha : InTime used a) (hb : InTime used b)
    (h : ∀ l ∈ b, ∀ k, used k → ¬ l.Reads k) : InTime used (a ++ b) :=
  fun k hk => List.pairwise_append.mpr ⟨ha k hk, hb k hk, fun _ _ l hl _ => h l hl k hk⟩

theorem inTime_append_of_minds (ha : ∀ l ∈ a, l.Minds used) (hb : InTime used b) :
    InTime used (a ++ b) := by
  intro k hk
  have hsets : ∀ l ∈ a, ¬ l.Sets k := fun l hl hset => hset.2 (ha l hl k hk hset.1)
  refine List.pairwise_append.mpr ⟨?_, hb k hk, fun l hl _ _ hset => absurd hset (hsets l hl)⟩
  exact List.Pairwise.imp_of_mem (fun hl _ _ hset => absurd hset (hsets _ hl))
    (List.pairwise_of_forall (R := fun _ _ => True) fun _ _ => trivial)

theorem inTime_of_minds (h : ∀ l ∈ lines, l.Minds used) : InTime used lines := by
  rw [← List.append_nil lines]
  exact inTime_append_of_minds h fun _ _ => .nil

theorem inTime_singleton (l : Line) : InTime used [l] := fun _ _ => List.pairwise_singleton _ _

theorem minds_spares (h : code.spares = true) : (ins code operands).Minds used :=
  fun _ _ hw => absurd hw (Opcode.not_writes_of_spares h)

/-- A line that reads what it replaces. -/
theorem minds_self (h : code ≠ .pushj) (hx : .reg x ∈ ys) : (ins code (.reg x :: ys)).Minds used :=
  fun _ _ hw => Opcode.reads_of_mem h hx ((Opcode.writes_of_ne_pushj h).mp hw).2

theorem minds_unused (h : code ≠ .pushj) (hx : ¬ used x.index.val) :
    (ins code (.reg x :: ys)).Minds used :=
  fun _ hk hw => absurd (((Opcode.writes_of_ne_pushj h).mp hw).2 ▸ hk) hx

/-- A label and a remark change nothing. -/
theorem inTime_piece (hcode : IsCode lines) (h : InTime used lines) (annotate : Bool)
    (label : Option String) (i : Instruction) : InTime used (piece annotate label i lines) := by
  have hlabel : InTime used (labelled? label lines) := by
    cases label with
    | none => exact h
    | some label =>
      rcases hcode.starts with rfl | ⟨code, operands, rest, rfl⟩
      · exact inTime_singleton _
      · intro k hk
        obtain ⟨hfirst, hrest⟩ := List.pairwise_cons.mp (h k hk)
        exact .cons hfirst hrest
  rw [piece_eq hcode.plain]
  refine inTime_append_of_minds (fun l hl => ?_) hlabel
  cases annotate with
  | false => cases hl
  | true =>
    rw [List.mem_singleton.mp hl]
    exact fun _ _ hw => hw.elim

end Line

section

variable {used : Nat → Prop} {lines : List Line}

theorem loadConstant_minds {r : Reg} (hr : ¬ used r.index.val) (value : UInt64) :
    ∀ l ∈ loadConstant r value, l.Minds used := by
  have hcodes : ∀ code ∈ partCodes, code ≠ .pushj := by decide
  intro l hl
  rcases mem_loadConstant hl with ⟨code, hcode, n, -, rfl⟩ | rfl | ⟨-, rfl⟩
  · exact Line.minds_unused (hcodes code hcode) hr
  · exact Line.minds_unused (by decide) hr
  · exact Line.minds_unused (by decide) hr

theorem immediate_minds {value scratch : Nat} {before : List Line} {o : Operand}
    (h : immediate value scratch = .ok (before, o)) (hs : ¬ used scratch) :
    ∀ l ∈ before, l.Minds used := by
  unfold immediate at h
  split at h
  · cases h
    exact List.forall_mem_nil _
  · simp only [bind_eq_ok, pure_eq_ok, Reg.ofIndex_eq_ok, Prod.mk.injEq] at h
    obtain ⟨r, rfl, rfl, rfl⟩ := h
    exact loadConstant_minds hs _

theorem addNumber_minds {r : Reg} {value scratch : Nat} (h : addNumber r value scratch = .ok lines)
    (hs : ¬ used scratch) : ∀ l ∈ lines, l.Minds used := by
  simp only [addNumber, bind_eq_ok, pure_eq_ok, Prod.exists] at h
  obtain ⟨before, o, himm, rfl⟩ := h
  refine List.forall_mem_append.mpr ⟨immediate_minds himm hs, List.forall_mem_singleton.mpr ?_⟩
  exact Line.minds_self (by decide) List.mem_cons_self

theorem accessAt_minds {code : Opcode} {x : Operand} {address : Reg} {bytes scratch : Nat}
    (h : accessAt code x address bytes scratch = .ok lines) (hs : ¬ used scratch)
    (hx : ∀ o, (Line.ins code [x, .reg address, o]).Minds used) : ∀ l ∈ lines, l.Minds used := by
  simp only [accessAt, bind_eq_ok, pure_eq_ok, Prod.exists] at h
  obtain ⟨before, o, himm, rfl⟩ := h
  exact List.forall_mem_append.mpr ⟨immediate_minds himm hs, List.forall_mem_singleton.mpr (hx o)⟩

theorem scale_minds {r : Reg} {stride scratch : Nat} (h : scale r stride scratch = .ok lines)
    (hs : ¬ used scratch) : ∀ l ∈ lines, l.Minds used := by
  unfold scale at h
  split at h
  · cases h
    exact List.forall_mem_nil _
  · split at h
    · cases h
      exact List.forall_mem_singleton.mpr (Line.minds_self (by decide) List.mem_cons_self)
    · simp only [bind_eq_ok, pure_eq_ok, Prod.exists] at h
      obtain ⟨before, o, himm, rfl⟩ := h
      refine List.forall_mem_append.mpr ⟨immediate_minds himm hs, List.forall_mem_singleton.mpr ?_⟩
      exact Line.minds_self (by decide) List.mem_cons_self

theorem Moves.inTime {pairs : List (Nat × Nat)} (h : Moves pairs lines) (hsafe : SafeOrder pairs) :
    Line.InTime used lines := by
  intro k _
  induction h with
  | nil => exact .nil
  | cons hp hrest ih =>
    obtain ⟨hfirst, hsafe⟩ := List.pairwise_cons.mp hsafe
    refine .cons (fun l' hl' hset hread => ?_) (ih hsafe)
    obtain ⟨q, hq, x', y', -, hy', rfl⟩ := Moves.mem hrest hl'
    obtain ⟨x, y, hx, -, rfl⟩ := hp
    have hk : k = x.index.val := hset.1.2
    rcases hread with ⟨hcode, -⟩ | ⟨z, hz, hkz⟩
    · rcases hcode with hcode | hcode <;> cases hcode
    · cases List.mem_singleton.mp hz
      have hne := (hfirst q hq).2
      omega

end

end CilMmix
