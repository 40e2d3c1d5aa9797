import CilMmix.Proofs.Assembly.Moves
import CilMmix.Proofs.Assembly.Piece
import CilMmix.Proofs.Machine.Basic
import CilMmix.Proofs.Text.Inline

/-! What a line has to do with: the registers it changes, the return address, and the label it
branches to. -/

namespace CilMmix

namespace Opcode

/-- Operations that leave the register they name first as it is, if they name one. -/
def spares : Opcode → Bool
  | bz | bnz | bnn | bp | bnp | bn | jmp | stb | stw | stt | sto | stou | stco | put | pop | trap | swym
  | loc | octa | byte => true
  | _ => false

/-- The operation may change register `k`. What a subroutine leaves in the registers from the hole on
is not known. -/
def Writes (k : Nat) : Opcode → List Operand → Prop
  | pushj, .reg x :: _ => x.index.val ≤ k
  | code, .reg x :: _ => code.spares = false ∧ k = x.index.val
  | _, _ => False

/-- The label that the operation branches to. -/
def branch? : Opcode → List Operand → Option String
  | jmp, [.sym label] => some label
  | code, [.reg _, .sym label] => code.test?.map fun _ => label
  | _, _ => none

/-- The operation reads or writes the return address. A return, which goes there, does not count. -/
def Links : Opcode → List Operand → Prop
  | pushj, _ => True
  | get, [_, .sym name] | put, [.sym name, _] => name = "rJ"
  | _, _ => False

theorem spares_of_update? {code : Opcode} (h : code.update?.isSome = true) :
    code.spares = false ∧ code ≠ pushj := by
  cases code <;> simp_all [update?, spares]

theorem spares_of_binary? {code : Opcode} (h : code.binary?.isSome = true) :
    code.spares = false ∧ code ≠ pushj := by
  cases code <;> simp_all [binary?, spares]

theorem spares_of_paired? {code : Opcode} {upper : Word} (h : (code.paired? upper).isSome = true) :
    code.spares = false ∧ code ≠ pushj := by
  cases code <;> simp_all [paired?, spares]

theorem writes_of_ne_pushj {code : Opcode} (h : code ≠ pushj) {k : Nat} {x : Reg} {ys : List Operand} :
    code.Writes k (.reg x :: ys) ↔ code.spares = false ∧ k = x.index.val := by
  cases code <;> first | rfl | exact absurd rfl h

end Opcode

namespace Line

def Writes (k : Nat) : Line → Prop
  | op _ code operands => code.Writes k operands
  | _ => False

def branch? : Line → Option String
  | op _ code operands => code.branch? operands
  | _ => none

def Links : Line → Prop
  | op _ code operands => code.Links operands
  | _ => False

@[simp] theorem writes_unlabel (k : Nat) (l : Line) : l.unlabel.Writes k ↔ l.Writes k := by
  cases l <;> rfl

@[simp] theorem branch?_unlabel (l : Line) : l.unlabel.branch? = l.branch? := by
  cases l <;> rfl

@[simp] theorem links_unlabel (l : Line) : l.unlabel.Links ↔ l.Links := by
  cases l <;> rfl

/-- A register that a line does not write is what it was. -/
theorem act_regs {l : Line} {m m' : Machine} (h : l.act m = .go m') {k : Nat} (hk : ¬ l.Writes k) :
    m'.regs k = m.regs k := by
  cases l with
  | note | comment | blank =>
    cases h
    rfl
  | verbatim => cases h
  | op label code operands =>
    have hset : ∀ {x : Reg} {ys : List Operand} {w : Word}, operands = .reg x :: ys →
        code.spares = false ∧ code ≠ .pushj → (m.set x.index.val w).regs k = m.regs k := by
      rintro x ys w rfl ⟨hcode, hne⟩
      refine Function.update_of_ne (fun hx => hk ?_) ..
      exact (Opcode.writes_of_ne_pushj hne).mpr ⟨hcode, hx⟩
    simp only [act] at h
    unfold Opcode.act at h
    split at h
    · cases h
      rfl
    · cases h
    · cases h
      exact hset rfl ⟨rfl, by decide⟩
    · cases h
      rfl
    · split at h
      · split at h
        · cases h
        · cases h
          rfl
      · cases h
    · split at h
      · rename_i hf _
        cases h
        exact hset rfl (Opcode.spares_of_update? (by rw [hf]; rfl))
      · cases h
    · split at h
      · unfold Opcode.combine at h
        split at h
        · rename_i hf
          cases h
          exact hset rfl (Opcode.spares_of_binary? (by rw [hf]; rfl))
        · rename_i hf
          cases h
          exact hset rfl (Opcode.spares_of_paired? (by rw [hf]; rfl))
        · cases h
      · cases h
    · cases h

end Line

/-- Lines that leave a register alone do so one after the other. -/
theorem run_regs {lines : List Line} {m m' : Machine} {e : Exit} (h : run lines m = (m', e)) {k : Nat}
    (hk : ∀ l ∈ lines, ¬ l.Writes k) : m'.regs k = m.regs k := by
  induction lines generalizing m with
  | nil =>
    cases h
    rfl
  | cons l lines ih =>
    rw [run] at h
    cases hl : l.act m with
    | go m₁ =>
      rw [hl] at h
      have hfirst := Line.act_regs hl (hk l List.mem_cons_self)
      have hrest := ih h fun l' hl' => hk l' (List.mem_cons_of_mem _ hl')
      exact hrest.trans hfirst
    | jump | stop =>
      rw [hl] at h
      cases h
      rfl

namespace Opcode

/-- Operations that may go on elsewhere than at the next line. -/
def branches : Opcode → Bool
  | jmp | bz | bnz | bnn | bp | bnp | bn => true
  | _ => false

/-- Operations that neither branch nor call a subroutine nor are unknown. -/
def ordinary : Opcode → Bool
  | pushj | other _ => false
  | code => !code.branches

theorem branch?_of_no_sym {code : Opcode} {operands : List Operand}
    (h : ∀ name, Operand.sym name ∉ operands) : code.branch? operands = none := by
  unfold branch?
  split
  · exact absurd List.mem_cons_self (h _)
  · exact absurd (List.mem_cons_of_mem _ List.mem_cons_self) (h _)
  · rfl

theorem not_links_of_no_sym {code : Opcode} {operands : List Operand} (hcode : code.ordinary = true)
    (h : ∀ name, Operand.sym name ∉ operands) : ¬ code.Links operands := by
  unfold Links
  split
  · cases hcode
  · exact absurd (List.mem_cons_of_mem _ List.mem_cons_self) (h _)
  · exact absurd List.mem_cons_self (h _)
  · exact id

end Opcode

theorem Opcode.not_writes_of_spares {code : Opcode} (hcode : code.spares = true) {k : Nat}
    {operands : List Operand} : ¬ code.Writes k operands := by
  unfold Opcode.Writes
  split
  · cases hcode
  · simp [hcode]
  · exact id

/-- Letters, digits and underscores, at least one of them. -/
structure IsSymbol (s : String) : Prop where
  ne_empty : s ≠ ""
  chars : ∀ c ∈ s.toList, c.isAlphanum = true ∨ c = '_'

theorem IsSymbol.not_mem {s : String} (h : IsSymbol s) {c : Char} (hc : c.isAlphanum = false)
    (hne : c ≠ '_') : c ∉ s.toList := by
  intro hmem
  rcases h.chars c hmem with ha | rfl
  · cases hc.symm.trans ha
  · exact hne rfl

theorem IsSymbol.inline {s : String} (h : IsSymbol s) : Text.Inline s := h.not_mem rfl (by decide)

theorem isSymbol_mangle (name : String) : IsSymbol (mangle name) := by
  have hmap : ∀ c ∈ name.toList.map fun c => if c.isAlphanum then c else '_',
      c.isAlphanum = true ∨ c = '_' := by
    intro c hc
    obtain ⟨c', -, rfl⟩ := List.mem_map.mp hc
    split
    · exact .inl ‹_›
    · exact .inr rfl
  unfold mangle
  dsimp only
  split
  · exact ⟨by decide, by simp⟩
  · rename_i c rest hcs
    refine ⟨?_, ?_⟩
    · intro h
      have hlist := congrArg String.toList h
      rw [String.toList_ofList, hcs] at hlist
      split at hlist <;> cases hlist
    · rw [String.toList_ofList]
      split
      · exact List.forall_mem_cons.mpr ⟨.inr rfl, hmap⟩
      · exact hmap

/-- A line of the code of an instruction: an operation that changes only registers from `base` on, that
branches only to `target`, and that has to do with the return address only in a method that `calls`. -/
structure Line.Works (base : Nat) (calls : Bool) (target : Option String) (l : Line) : Prop where
  isOp : ∃ code operands, l = .ins code operands ∧ (∀ name, code ≠ .other name) ∧
    (∀ name, .sym name ∈ operands → Text.Inline name ∨ target = some name) ∧
    (code.branches = true → ∃ label, code.branch? operands = some label)
  writes : ∀ k, l.Writes k → base ≤ k
  branch : ∀ label, l.branch? = some label → target = some label
  links : l.Links → calls = true

namespace Line.Works

variable {base : Nat} {calls : Bool} {target : Option String} {code : Opcode} {x : Reg}
  {ys operands : List Operand}

theorem of_no_sym (hcode : code.ordinary = true) (hops : ∀ name, Operand.sym name ∉ operands)
    (hw : ∀ k, code.Writes k operands → base ≤ k) : (ins code operands).Works base calls target where
  isOp := by
    refine ⟨code, operands, rfl, ?_, fun name hname => absurd hname (hops name), fun hb => ?_⟩
    · rintro name rfl
      cases hcode
    · have hno : code.branches = false := by
        cases code <;> simp_all [Opcode.ordinary]
      cases hno.symm.trans hb
  writes := hw
  branch label h := by
    have hnone : code.branch? operands = none := Opcode.branch?_of_no_sym hops
    cases hnone.symm.trans h
  links h := absurd h (Opcode.not_links_of_no_sym hcode hops)

theorem sets (hcode : code.ordinary = true) (hx : base ≤ x.index.val)
    (hys : ∀ name, Operand.sym name ∉ ys) : (ins code (.reg x :: ys)).Works base calls target := by
  refine of_no_sym hcode (by simpa using hys) fun k hk => ?_
  have hne : code ≠ .pushj := by
    rintro rfl
    cases hcode
  rw [((Opcode.writes_of_ne_pushj hne).mp hk).2]
  exact hx

theorem spares (hcode : code.ordinary = true) (hspares : code.spares = true)
    (hops : ∀ name, Operand.sym name ∉ operands) : (ins code operands).Works base calls target :=
  of_no_sym hcode hops fun _ hk => absurd hk (Opcode.not_writes_of_spares hspares)

theorem get {name : String} (hx : base ≤ x.index.val) (hlink : name ≠ "rJ")
    (hname : Text.Inline name) : (ins .get [.reg x, .sym name]).Works base calls target where
  isOp := ⟨_, _, rfl, nofun, by simp [hname], nofun⟩
  writes k hk := by
    have hk : k = x.index.val := hk.2
    omega
  branch := nofun
  links h := absurd h hlink

theorem pushj {name : String} (hx : base ≤ x.index.val) (hname : Text.Inline name) :
    (ins .pushj [.reg x, .sym name]).Works base true target where
  isOp := ⟨_, _, rfl, nofun, by simp [hname], nofun⟩
  writes k hk := Nat.le_trans hx hk
  branch := nofun
  links _ := rfl

theorem test {label : String} (hcode : code.test?.isSome = true) :
    (ins code [.reg x, .sym label]).Works base calls (some label) := by
  have hspares : code.spares = true := by cases code <;> first | rfl | cases hcode
  have hbranch : code.branch? [.reg x, .sym label] = code.test?.map fun _ => label := by
    cases code <;> rfl
  refine ⟨⟨_, _, rfl, ?_, by simp, fun _ => ⟨label, ?_⟩⟩,
    fun k hk => absurd hk (Opcode.not_writes_of_spares hspares), ?_, ?_⟩
  · rintro name rfl
    cases hcode
  · obtain ⟨taken, htaken⟩ := Option.isSome_iff_exists.mp hcode
    rw [hbranch, htaken]
    rfl
  · intro label' h
    obtain ⟨_, -, rfl⟩ := Option.map_eq_some_iff.mp (hbranch.symm.trans h)
    rfl
  · intro h
    cases code <;> first | exact h.elim | cases hcode

theorem jmp (label : String) : (ins .jmp [.sym label]).Works base calls (some label) where
  isOp := ⟨_, _, rfl, nofun, by simp, fun _ => ⟨label, rfl⟩⟩
  writes := nofun
  branch _ h := h
  links := nofun

theorem mono {base' : Nat} {calls' : Bool} {l : Line} (h : l.Works base' calls' target)
    (hle : base ≤ base') (hcalls : calls' = true → calls = true) : l.Works base calls target :=
  ⟨h.isOp, fun k hk => Nat.le_trans hle (h.writes k hk), h.branch, fun hl => hcalls (h.links hl)⟩

end Line.Works

theorem Moves.works {base : Nat} {calls : Bool} {target : Option String} {pairs : List (Nat × Nat)}
    {lines : List Line} (h : Moves pairs lines) (hp : ∀ p ∈ pairs, base ≤ p.1) :
    ∀ l ∈ lines, l.Works base calls target := by
  intro l hl
  obtain ⟨p, hmem, x, y, hx, -, rfl⟩ := h.mem hl
  have hle := hp p hmem
  exact .sets rfl (by omega) (by simp)

section

variable {base : Nat} {calls : Bool} {target : Option String}

theorem loadConstant_works {r : Reg} (hr : base ≤ r.index.val) (value : UInt64) :
    ∀ l ∈ loadConstant r value, l.Works base calls target := by
  have hcodes : ∀ code ∈ partCodes, code.ordinary = true := by decide
  intro l hl
  rcases mem_loadConstant hl with ⟨code, hcode, n, -, rfl⟩ | rfl | ⟨-, rfl⟩
  · exact .sets (hcodes code hcode) hr (by simp)
  · exact .sets rfl hr (by simp)
  · exact .sets rfl hr (by simp)

theorem immediate_works {value scratch : Nat} {before : List Line} {o : Operand}
    (h : immediate value scratch = .ok (before, o)) (hs : base ≤ scratch) :
    (∀ l ∈ before, l.Works base calls target) ∧ ∀ name, o ≠ .sym name := by
  unfold immediate at h
  split at h
  · cases h
    exact ⟨nofun, nofun⟩
  · simp only [bind_eq_ok, pure_eq_ok, Reg.ofIndex_eq_ok, Prod.mk.injEq] at h
    obtain ⟨r, hr, rfl, rfl⟩ := h
    exact ⟨loadConstant_works (by omega) _, nofun⟩

theorem addNumber_works {r : Reg} {value scratch : Nat} {lines : List Line}
    (h : addNumber r value scratch = .ok lines) (hr : base ≤ r.index.val) (hs : base ≤ scratch) :
    ∀ l ∈ lines, l.Works base calls target := by
  simp only [addNumber, bind_eq_ok, pure_eq_ok, Prod.exists] at h
  obtain ⟨before, o, himm, rfl⟩ := h
  obtain ⟨hbefore, ho⟩ := immediate_works himm hs
  refine List.forall_mem_append.mpr ⟨hbefore, List.forall_mem_singleton.mpr ?_⟩
  exact .sets rfl hr (by simp [(ho _).symm])

/-- A load sets its first operand, and a store sets nothing. -/
theorem accessAt_works {code : Opcode} {x : Operand} {address : Reg} {bytes scratch : Nat}
    {lines : List Line} (h : accessAt code x address bytes scratch = .ok lines)
    (hcode : code.ordinary = true) (hx : ∀ name, x ≠ .sym name)
    (hw : code.spares = true ∨ ∃ r : Reg, x = .reg r ∧ base ≤ r.index.val) (hs : base ≤ scratch) :
    ∀ l ∈ lines, l.Works base calls target := by
  simp only [accessAt, bind_eq_ok, pure_eq_ok, Prod.exists] at h
  obtain ⟨before, o, himm, rfl⟩ := h
  obtain ⟨hbefore, ho⟩ := immediate_works himm hs
  refine List.forall_mem_append.mpr ⟨hbefore, List.forall_mem_singleton.mpr ?_⟩
  rcases hw with hspares | ⟨r, rfl, hr⟩
  · exact .spares hcode hspares (by simp [(ho _).symm, (hx _).symm])
  · exact .sets hcode hr (by simp [(ho _).symm])

theorem scale_works {r : Reg} {stride scratch : Nat} {lines : List Line}
    (h : scale r stride scratch = .ok lines) (hr : base ≤ r.index.val) (hs : base ≤ scratch) :
    ∀ l ∈ lines, l.Works base calls target := by
  unfold scale at h
  split at h
  · cases h
    exact nofun
  · split at h
    · cases h
      exact List.forall_mem_singleton.mpr (.sets rfl hr (by simp))
    · simp only [bind_eq_ok, pure_eq_ok, Prod.exists] at h
      obtain ⟨before, o, himm, rfl⟩ := h
      obtain ⟨hbefore, ho⟩ := immediate_works himm hs
      refine List.forall_mem_append.mpr ⟨hbefore, List.forall_mem_singleton.mpr ?_⟩
      exact .sets rfl hr (by simp [(ho _).symm])

end

end CilMmix
