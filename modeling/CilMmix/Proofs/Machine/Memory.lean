import Mathlib.Algebra.Group.Nat.Defs
import CilMmix.Proofs.Machine.Windows

/-! A machine with memory and subroutines. A word stands in memory with its most significant byte first;
an access to several bytes goes to the multiple of their number at or below the address. -/

namespace CilMmix

abbrev Memory := Word → BitVec 8

/-- So many addresses from one on. -/
def span (a : Word) (n : Nat) : List Word := (List.range n).map fun k => a + BitVec.ofNat 64 k

theorem mem_span {a x : Word} {n : Nat} : x ∈ span a n ↔ ∃ k < n, x = a + BitVec.ofNat 64 k := by
  simp only [span, List.mem_map, List.mem_range, eq_comm]

theorem add_ofNat_inj {a : Word} {j k : Nat} (hj : j < 2 ^ 64) (hk : k < 2 ^ 64)
    (h : a + BitVec.ofNat 64 j = a + BitVec.ofNat 64 k) : j = k := by
  have htoNat := congrArg BitVec.toNat ((BitVec.add_right_inj a).mp h)
  rwa [BitVec.toNat_ofNat, BitVec.toNat_ofNat, Nat.mod_eq_of_lt hj, Nat.mod_eq_of_lt hk] at htoNat

theorem mem_span_of_part {a x : Word} {d m n : Nat} (h : d + m ≤ n)
    (hx : x ∈ span (a + BitVec.ofNat 64 d) m) : x ∈ span a n := by
  obtain ⟨k, hk, rfl⟩ := mem_span.mp hx
  refine mem_span.mpr ⟨d + k, by omega, ?_⟩
  rw [BitVec.add_assoc, ← BitVec.ofNat_add]

theorem not_mem_span_of_part {a x : Word} {d d' m m' : Nat} (h : d + m ≤ d' ∨ d' + m' ≤ d)
    (hd : d + m ≤ 2 ^ 64) (hd' : d' + m' ≤ 2 ^ 64) (hx : x ∈ span (a + BitVec.ofNat 64 d) m) :
    x ∉ span (a + BitVec.ofNat 64 d') m' := by
  intro hx'
  obtain ⟨k, hk, rfl⟩ := mem_span.mp hx
  obtain ⟨k', hk', he⟩ := mem_span.mp hx'
  rw [BitVec.add_assoc, BitVec.add_assoc, ← BitVec.ofNat_add, ← BitVec.ofNat_add] at he
  have heq := add_ofNat_inj (by omega) (by omega) he
  omega

namespace Memory

/-- The number in so many bytes. -/
def read (m : Memory) (a : Word) : Nat → Nat
  | 0 => 0
  | n + 1 => m.read a n * 256 + (m (a + BitVec.ofNat 64 n)).toNat

/-- Puts a number into so many bytes, or what of it has room there. -/
def write (m : Memory) (a : Word) : Nat → Nat → Memory
  | 0, _ => m
  | n + 1, v => Function.update (m.write a n (v / 256)) (a + BitVec.ofNat 64 n) (BitVec.ofNat 8 v)

variable {m m' : Memory} {a : Word} {n : Nat}

theorem read_congr (h : ∀ x ∈ span a n, m x = m' x) : m.read a n = m'.read a n := by
  induction n with
  | zero => rfl
  | succ n ih =>
    have hlast := h _ (mem_span.mpr ⟨n, Nat.lt_succ_self n, rfl⟩)
    have hrest := ih fun x hx => by
      obtain ⟨k, hk, rfl⟩ := mem_span.mp hx
      exact h _ (mem_span.mpr ⟨k, Nat.lt_succ_of_lt hk, rfl⟩)
    rw [read, read, hlast, hrest]

theorem write_outside {x : Word} (hx : x ∉ span a n) (v : Nat) : m.write a n v x = m x := by
  induction n generalizing v with
  | zero => rfl
  | succ n ih =>
    have hne : x ≠ a + BitVec.ofNat 64 n := by
      intro he
      exact hx (mem_span.mpr ⟨n, Nat.lt_succ_self n, he⟩)
    have hrest : x ∉ span a n := by
      intro hmem
      obtain ⟨k, hk, he⟩ := mem_span.mp hmem
      exact hx (mem_span.mpr ⟨k, Nat.lt_succ_of_lt hk, he⟩)
    rw [write, Function.update_of_ne hne, ih hrest]

theorem read_write (h : n ≤ 2 ^ 64) (v : Nat) : (m.write a n v).read a n = v % 256 ^ n := by
  induction n generalizing v with
  | zero => simp [read, Nat.mod_one]
  | succ n ih =>
    -- The last byte is written last, and the others are as they were.
    have hothers : (m.write a (n + 1) v).read a n = (m.write a n (v / 256)).read a n := by
      refine read_congr fun x hx => Function.update_of_ne ?_ ..
      rintro rfl
      obtain ⟨k, hk, he⟩ := mem_span.mp hx
      have heq := add_ofNat_inj (by omega) (by omega) he
      omega
    have hlast : m.write a (n + 1) v (a + BitVec.ofNat 64 n) = BitVec.ofNat 8 v :=
      Function.update_self ..
    rw [read, hothers, hlast, ih (by omega), BitVec.toNat_ofNat, pow_succ' 256 n, Nat.mod_mul]
    generalize v / 256 % 256 ^ n = q
    omega

end Memory

structure Host extends Machine where
  memory : Memory

/-- What a subroutine leaves: its registers, how many of them it hands over, and all else. -/
structure Return where
  regs : Registers
  words : Nat
  special : String → Word
  memory : Memory

/-- A subroutine, given registers of its own. -/
abbrev Subroutine := Registers → Memory → Return

/-- What a line does beyond the registers of the machine. -/
inductive Host.Effect where
  | reads (bytes : List Word)
  | writes (bytes : List Word)
  /-- The first register of the subroutine, and the first word that it hands over. -/
  | calls (name : String) (argument result : Word)

/-- The address of the bytes that are accessed so many at a time. -/
def Word.aligned (a : Word) (bytes : Nat) : Word := BitVec.ofNat 64 (a.toNat / bytes * bytes)

theorem Word.aligned_eight {a : Word} (h : a.toNat % 8 = 0) : a.aligned 8 = a := by
  apply BitVec.eq_of_toNat_eq
  have hlt := a.isLt
  rw [aligned, BitVec.toNat_ofNat]
  omega

def Word.extend (bytes : Nat) (signed : Bool) (n : Nat) : Word :=
  if signed then (BitVec.ofNat (8 * bytes) n).signExtend 64 else BitVec.ofNat 64 n

namespace Opcode

/-- The bytes that an operation loads, and whether the first bit is their sign. -/
def load? : Opcode → Option (Nat × Bool)
  | ldb => some (1, true)
  | ldbu => some (1, false)
  | ldw => some (2, true)
  | ldwu => some (2, false)
  | ldt => some (4, true)
  | ldtu => some (4, false)
  | ldo => some (8, true)
  | ldou => some (8, false)
  | _ => none

def store? : Opcode → Option Nat
  | stb => some 1
  | stw => some 2
  | stt => some 4
  | sto | stou => some 8
  | _ => none

end Opcode

namespace Host

def load (h : Host) (x : Reg) (a : Word) (bytes : Nat) (signed : Bool) : Host × List Host.Effect :=
  (⟨h.toMachine.set x.index.val (Word.extend bytes signed (h.memory.read (a.aligned bytes) bytes)),
      h.memory⟩,
    [.reads (span (a.aligned bytes) bytes)])

def store (h : Host) (v a : Word) (bytes : Nat) : Host × List Host.Effect :=
  (⟨h.toMachine, h.memory.write (a.aligned bytes) bytes v.toNat⟩,
    [.writes (span (a.aligned bytes) bytes)])

def call (h : Host) (name : String) (f : Subroutine) (hole : Nat) : Host × List Host.Effect :=
  let r := f (h.regs.pushed hole) h.memory
  let regs := h.regs.popped r.regs hole r.words
  (⟨⟨regs, r.special⟩, r.memory⟩, [.calls name (h.regs (hole + 1)) (regs hole)])

end Host

/-- Operations that the machine alone stops at. -/
def Opcode.reach (calls : String → Subroutine) (h : Host) :
    Opcode → List Operand → Option (Host × List Host.Effect)
  | pushj, [.reg x, .sym name] => some (h.call name (calls name) x.index.val)
  | code, [.reg x, y, z] =>
    (y.value h.toMachine).bind fun base => (z.value h.toMachine).bind fun distance =>
      (code.load?.map fun l => h.load x (base + distance) l.1 l.2).or
        (code.store?.map (h.store (h.regs x.index.val) (base + distance)))
  | _, _ => none

namespace Line

def reach (calls : String → Subroutine) (h : Host) : Line → Option (Host × List Host.Effect)
  | op _ code operands => code.reach calls h operands
  | _ => none

/-- A line that goes on to the next. -/
def perform (calls : String → Subroutine) (h : Host) (l : Line) : Option (Host × List Host.Effect) :=
  match l.act h.toMachine with
  | .go m => some ({ h with toMachine := m }, [])
  | .jump _ => none
  | .stop => l.reach calls h

end Line

namespace Host

/-- Lines one after the other, with all that they do to memory. -/
def run (calls : String → Subroutine) : List Line → Host → Option (Host × List Host.Effect)
  | [], h => some (h, [])
  | l :: lines, h =>
    (l.perform calls h).bind fun r => (run calls lines r.1).map fun q => (q.1, r.2 ++ q.2)

variable {calls : String → Subroutine}

theorem run_append {a b : List Line} {h h' : Host} {effects : List Host.Effect}
    (ha : run calls a h = some (h', effects)) :
    run calls (a ++ b) h = (run calls b h').map fun q => (q.1, effects ++ q.2) := by
  induction a generalizing h effects with
  | nil =>
    cases ha
    simp
  | cons l a ih =>
    rw [run] at ha
    obtain ⟨r, hr, hrest⟩ := Option.bind_eq_some_iff.mp ha
    obtain ⟨q, hq, hpair⟩ := Option.map_eq_some_iff.mp hrest
    cases hpair
    rw [List.cons_append, run, hr, Option.bind_some, ih hq, Option.map_map]
    simp only [Function.comp_def, List.append_assoc]

theorem run_of_fall {lines : List Line} {m m' : Machine} (h : CilMmix.run lines m = (m', .fall))
    (memory : Memory) : run calls lines ⟨m, memory⟩ = some (⟨m', memory⟩, []) := by
  induction lines generalizing m with
  | nil =>
    cases h
    rfl
  | cons l lines ih =>
    rw [CilMmix.run] at h
    cases hl : l.act m with
    | go m₁ =>
      rw [hl] at h
      have hfirst : l.perform calls ⟨m, memory⟩ = some (⟨m₁, memory⟩, []) := by
        simp only [Line.perform, hl]
      rw [run, hfirst, Option.bind_some, ih h]
      rfl
    | jump | stop =>
      rw [hl] at h
      cases h

theorem run_singleton (l : Line) (h : Host) : run calls [l] h = l.perform calls h := by
  rw [run]
  cases l.perform calls h with
  | none => rfl
  | some r => simp [run]

theorem run_concat {lines : List Line} {l : Line} {h : Host} {m : Machine}
    (hlines : CilMmix.run lines h.toMachine = (m, .fall)) :
    run calls (lines ++ [l]) h = l.perform calls ⟨m, h.memory⟩ := by
  rw [run_append (run_of_fall hlines h.memory), run_singleton]
  cases l.perform calls ⟨m, h.memory⟩ <;> rfl

end Host

section

variable {calls : String → Subroutine} {h : Host} {code : Opcode} {bytes : Nat} {x : Reg} {y z : Operand}
  {base distance : Word}

theorem Line.perform_load {signed : Bool} (hcode : code.load? = some (bytes, signed))
    (hy : y.value h.toMachine = some base) (hz : z.value h.toMachine = some distance) :
    (ins code [.reg x, y, z]).perform calls h = some (h.load x (base + distance) bytes signed) := by
  cases code <;> cases hcode <;>
    simp [perform, ins, act, reach, Opcode.act, Opcode.combine, Opcode.reach, Opcode.binary?,
      Opcode.paired?, Opcode.load?, hy, hz]

theorem Line.perform_store (hcode : code.store? = some bytes) (hy : y.value h.toMachine = some base)
    (hz : z.value h.toMachine = some distance) : (ins code [.reg x, y, z]).perform calls h =
      some (h.store (h.regs x.index.val) (base + distance) bytes) := by
  cases code <;> cases hcode <;>
    simp [perform, ins, act, reach, Opcode.act, Opcode.combine, Opcode.reach, Opcode.binary?,
      Opcode.paired?, Opcode.load?, Opcode.store?, hy, hz]

end

theorem Line.perform_pushj (calls : String → Subroutine) (h : Host) (x : Reg) (name : String) :
    (ins .pushj [.reg x, .sym name]).perform calls h = some (h.call name (calls name) x.index.val) := rfl

end CilMmix
