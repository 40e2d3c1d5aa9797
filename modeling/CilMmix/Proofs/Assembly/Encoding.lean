import CilMmix.Proofs.Assembly.Written

/-! Numbers in the operands of a line. An operation that sets or adds a sixteen-bit part takes numbers of
sixteen bits, and any other one numbers of eight bits. -/

namespace CilMmix

namespace Opcode

/-- The largest number that an operand of the operation can be. -/
def limit : Opcode → Nat
  | setl | setml | setmh | seth | orl | orml | ormh | orh => maxWyde
  | _ => maxImmediate

/-- Operations of the machine after which control comes to the next line, if not elsewhere. -/
def steps : Opcode → Bool
  | jmp | pop | trap | loc | octa | byte | other _ => false
  | _ => true

theorem le_limit (code : Opcode) : maxImmediate ≤ code.limit := by
  cases code <;> exact Nat.le_of_ble_eq_true rfl

end Opcode

/-- An operand that is a register, a symbol, or a number of at most `n`. -/
def Operand.fits (n : Nat) : Operand → Bool
  | reg _ | sym _ => true
  | imm k | hex _ k => k ≤ n

@[simp] theorem Operand.fits_reg (n : Nat) (r : Reg) : (Operand.reg r).fits n = true := rfl

@[simp] theorem Operand.fits_sym (n : Nat) (name : String) : (Operand.sym name).fits n = true := rfl

@[simp] theorem Operand.fits_imm {n k : Nat} : (Operand.imm k).fits n = true ↔ k ≤ n := decide_eq_true_iff

theorem Operand.fits_mono {n n' : Nat} (hle : n ≤ n') {o : Operand} (h : o.fits n = true) :
    o.fits n' = true := by
  cases o with
  | reg | sym => rfl
  | imm k | hex _ k =>
    simp only [fits, decide_eq_true_eq] at h ⊢
    omega

namespace Line

/-- The numbers in the line can be encoded. -/
def encodable : Line → Bool
  | op _ code operands => operands.all (Operand.fits code.limit)
  | _ => true

@[simp] theorem encodable_unlabel (l : Line) : l.unlabel.encodable = l.encodable := by
  cases l <;> rfl

/-- An operation of the machine that goes on to the next line. Its numbers can be encoded if they could
be as large as `n`. -/
def Fits (n : Nat) (l : Line) : Prop :=
  ∃ code operands, l = .ins code operands ∧ code.steps = true ∧
    ∀ o ∈ operands, o.fits (max code.limit n) = true

namespace Fits

variable {n : Nat} {l : Line} {code : Opcode} {operands : List Operand}

/-- Numbers of eight bits go with any operation. -/
theorem small (hsteps : code.steps = true) (h : ∀ o ∈ operands, o.fits maxImmediate = true) :
    (ins code operands).Fits n := by
  have hle := code.le_limit
  exact ⟨code, operands, rfl, hsteps, fun o ho => Operand.fits_mono (by omega) (h o ho)⟩

/-- Sixteen bits go with the operations on parts of a word. -/
theorem wyde (hsteps : code.steps = true) (hcode : code.limit = maxWyde) {r : Reg} {k : Nat}
    (hk : k ≤ maxWyde) : (ins code [.reg r, .imm k]).Fits n := by
  refine ⟨code, _, rfl, hsteps, ?_⟩
  have hle : k ≤ max code.limit n := by omega
  simpa using hle

theorem encodable (h : l.Fits n) (hn : n ≤ maxImmediate) : l.encodable = true := by
  obtain ⟨code, operands, rfl, -, hfits⟩ := h
  have hmax : max code.limit n = code.limit := Nat.max_eq_left (Nat.le_trans hn code.le_limit)
  rw [hmax] at hfits
  exact List.all_eq_true.mpr hfits

end Fits

end Line

section

variable {n : Nat}

theorem Moves.fits {pairs : List (Nat × Nat)} {lines : List Line} (h : Moves pairs lines) :
    ∀ l ∈ lines, l.Fits n := by
  intro l hl
  obtain ⟨p, -, x, y, -, -, rfl⟩ := h.mem hl
  exact .small rfl (by simp)

/-- A constant is loaded by parts of sixteen bits; a small negative one is the complement of such a
part. -/
theorem loadConstant_fits (r : Reg) (value : UInt64) : ∀ l ∈ loadConstant r value, l.Fits n := by
  have hcodes : ∀ code ∈ partCodes, code.steps = true ∧ code.limit = maxWyde := by decide
  intro l hl
  rcases mem_loadConstant hl with ⟨code, hcode, k, hk, rfl⟩ | rfl | ⟨-, rfl⟩
  · exact .wyde (hcodes code hcode).1 (hcodes code hcode).2 hk
  · exact .small rfl (by simp)
  · exact .small rfl (by simp)

/-- A number that does not fit is put into a register first. -/
theorem immediate_fits {value scratch : Nat} {before : List Line} {o : Operand}
    (h : immediate value scratch = .ok (before, o)) :
    (∀ l ∈ before, l.Fits n) ∧ o.fits maxImmediate = true := by
  unfold immediate at h
  split at h
  · rename_i hle
    cases h
    exact ⟨List.forall_mem_nil _, decide_eq_true hle⟩
  · simp only [bind_eq_ok, pure_eq_ok, Prod.mk.injEq] at h
    obtain ⟨r, -, rfl, rfl⟩ := h
    exact ⟨loadConstant_fits r _, rfl⟩

theorem addNumber_fits {r : Reg} {value scratch : Nat} {lines : List Line}
    (h : addNumber r value scratch = .ok lines) : ∀ l ∈ lines, l.Fits n := by
  simp only [addNumber, bind_eq_ok, pure_eq_ok, Prod.exists] at h
  obtain ⟨before, o, himm, rfl⟩ := h
  obtain ⟨hbefore, ho⟩ := immediate_fits himm
  refine List.forall_mem_append.mpr ⟨hbefore, List.forall_mem_singleton.mpr ?_⟩
  exact .small rfl (by simp [ho])

theorem accessAt_fits {code : Opcode} {x : Operand} {address : Reg} {bytes scratch : Nat}
    {lines : List Line} (h : accessAt code x address bytes scratch = .ok lines)
    (hcode : code.steps = true) (hx : x.fits maxImmediate = true) : ∀ l ∈ lines, l.Fits n := by
  simp only [accessAt, bind_eq_ok, pure_eq_ok, Prod.exists] at h
  obtain ⟨before, o, himm, rfl⟩ := h
  obtain ⟨hbefore, ho⟩ := immediate_fits himm
  refine List.forall_mem_append.mpr ⟨hbefore, List.forall_mem_singleton.mpr ?_⟩
  exact .small hcode (by simp [hx, ho])

/-- A power of two is multiplied with by a shift of its logarithm. -/
theorem scale_fits {r : Reg} {stride scratch : Nat} {lines : List Line}
    (h : scale r stride scratch = .ok lines) (hn : stride.log2 ≤ max maxImmediate n) :
    ∀ l ∈ lines, l.Fits n := by
  unfold scale at h
  split at h
  · cases h
    exact List.forall_mem_nil _
  · split at h
    · cases h
      refine List.forall_mem_singleton.mpr ⟨_, _, rfl, rfl, ?_⟩
      have hle : stride.log2 ≤ max Opcode.slu.limit n := hn
      simpa using hle
    · simp only [bind_eq_ok, pure_eq_ok, Prod.exists] at h
      obtain ⟨before, o, himm, rfl⟩ := h
      obtain ⟨hbefore, ho⟩ := immediate_fits himm
      refine List.forall_mem_append.mpr ⟨hbefore, List.forall_mem_singleton.mpr ?_⟩
      exact .small rfl (by simp [ho])

end

end CilMmix
