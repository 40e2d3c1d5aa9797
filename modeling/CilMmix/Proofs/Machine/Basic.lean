import Mathlib.Algebra.Group.Nat.Defs
import Mathlib.Logic.Function.Basic
import Mathlib.Logic.Relation
import CilMmix.Assembly.Line

/-! A machine for straight code and branches: registers of 64 bits, one line at a time. Calls, returns,
traps and memory stop it. -/

namespace CilMmix

abbrev Word := BitVec 64

/-- What the general registers hold, by their index. -/
abbrev Registers := Nat → Word

structure Machine where
  regs : Registers
  /-- The special registers, by their name. -/
  special : String → Word

def Machine.set (m : Machine) (index : Nat) (w : Word) : Machine :=
  { m with regs := Function.update m.regs index w }

@[simp] theorem Machine.set_regs (m : Machine) (index : Nat) (w : Word) :
    (m.set index w).regs = Function.update m.regs index w := rfl

/-- Puts the second of two results into a special register. -/
def Machine.setPair (m : Machine) (index : Nat) (name : String) (results : Word × Word) : Machine :=
  { m.set index results.1 with special := Function.update m.special name results.2 }

@[simp] theorem Machine.setPair_regs (m : Machine) (index : Nat) (name : String)
    (results : Word × Word) :
    (m.setPair index name results).regs = Function.update m.regs index results.1 := rfl

@[simp] theorem Machine.setPair_special (m : Machine) (index : Nat) (name : String)
    (results : Word × Word) :
    (m.setPair index name results).special = Function.update m.special name results.2 := rfl

def Operand.value (m : Machine) : Operand → Option Word
  | reg r => some (m.regs r.index.val)
  | imm n => some (BitVec.ofNat 64 n)
  | sym _ | hex _ _ => none

/-- Minus one, zero or one, as the first word is less, equal or greater. -/
def Word.sign (less : Word → Word → Bool) (a b : Word) : Word :=
  if less a b then -1 else if less b a then 1 else 0

namespace Opcode

/-- Operations that combine two values. Counts of shifts are not cut off. -/
def binary? : Opcode → Option (Word → Word → Word)
  | add => some (· + ·)
  | sub | neg => some (· - ·)
  | mul => some (· * ·)
  | and => some (· &&& ·)
  | or => some (· ||| ·)
  | xor => some (· ^^^ ·)
  | nor => some fun a b => ~~~(a ||| b)
  | slu => some fun a b => a <<< b.toNat
  | sr => some fun a b => a.sshiftRight b.toNat
  | sru => some fun a b => a >>> b.toNat
  | cmp => some (Word.sign BitVec.slt)
  | cmpu => some (Word.sign BitVec.ult)
  | zsz => some fun a b => if a = 0 then b else 0
  | zsp => some fun a b => if BitVec.slt 0 a then b else 0
  | zsn => some fun a b => if BitVec.slt a 0 then b else 0
  | _ => none

/-- Operations with two results, and the special register for the second: the upper half of a product,
or the remainder of a division. A signed division rounds down. An unsigned one has a dividend of two
words, of which the upper is given, and is not made if the quotient has no room. -/
def paired? (upper : Word) : Opcode → Option (String × (Word → Word → Word × Word))
  | mulu => some ("rH", fun y z => (y * z, .ofNat 64 (y.toNat * z.toNat / 2 ^ 64)))
  | div => some ("rR", fun y z =>
    if z = 0 then (0, y)
    else (.ofInt 64 (y.toInt.fdiv z.toInt), .ofInt 64 (y.toInt.fmod z.toInt)))
  | divu => some ("rR", fun y z =>
    if upper.toNat < z.toNat then
      (.ofNat 64 ((upper.toNat * 2 ^ 64 + y.toNat) / z.toNat),
        .ofNat 64 ((upper.toNat * 2 ^ 64 + y.toNat) % z.toNat))
    else (upper, y))
  | _ => none

/-- Operations that set or complete a register, given what it holds. -/
def update? : Opcode → Option (Word → Word → Word)
  | set | setl => some fun _ v => v
  | setml => some fun _ v => v <<< 16
  | setmh => some fun _ v => v <<< 32
  | seth => some fun _ v => v <<< 48
  | orl => some fun a v => a ||| v
  | orml => some fun a v => a ||| v <<< 16
  | ormh => some fun a v => a ||| v <<< 32
  | orh => some fun a v => a ||| v <<< 48
  | _ => none

/-- When a branch is taken. -/
def test? : Opcode → Option (Word → Bool)
  | bz => some fun a => a == 0
  | bnz => some fun a => a != 0
  | bn => some fun a => BitVec.slt a 0
  | bnn => some fun a => !BitVec.slt a 0
  | bp => some fun a => BitVec.slt 0 a
  | bnp => some fun a => !BitVec.slt 0 a
  | _ => none

end Opcode

/-- What becomes of the machine at a line. -/
inductive Act where
  | go (m : Machine)
  | jump (label : String)
  | stop

def Opcode.combine (m : Machine) (index : Nat) (v w : Word) (code : Opcode) : Act :=
  match code.binary?, code.paired? (m.special "rD") with
  | some f, _ => .go (m.set index (f v w))
  | none, some (name, f) => .go (m.setPair index name (f v w))
  | none, none => .stop

def Opcode.act (m : Machine) : Opcode → List Operand → Act
  | swym, _ => .go m
  | jmp, [.sym label] => .jump label
  | get, [.reg x, .sym name] => .go (m.set x.index.val (m.special name))
  | put, [.sym name, .reg x] =>
    .go { m with special := Function.update m.special name (m.regs x.index.val) }
  | code, [.reg x, .sym label] =>
    match code.test? with
    | some taken => if taken (m.regs x.index.val) then .jump label else .go m
    | none => .stop
  | code, [.reg x, y] =>
    match code.update?, y.value m with
    | some f, some v => .go (m.set x.index.val (f (m.regs x.index.val) v))
    | _, _ => .stop
  | code, [.reg x, y, z] =>
    match y.value m, z.value m with
    | some v, some w => code.combine m x.index.val v w
    | _, _ => .stop
  | _, _ => .stop

namespace Line

def act (m : Machine) : Line → Act
  | op _ code operands => code.act m operands
  | note _ _ | comment _ | blank => .go m
  | verbatim _ => .stop

def label? : Line → Option String
  | op label _ _ | note label _ => label
  | comment _ | blank | verbatim _ => none

/-- The line without its label. -/
def unlabel : Line → Line
  | op _ code operands => op none code operands
  | note _ text => note none text
  | line => line

theorem act_unlabel (m : Machine) (l : Line) : l.unlabel.act m = l.act m := by
  cases l <;> rfl

end Line

theorem Line.act_binary {code : Opcode} {f : Word → Word → Word} (h : code.binary? = some f)
    {m : Machine} {x : Reg} {y z : Operand} {v w : Word} (hy : y.value m = some v)
    (hz : z.value m = some w) :
    (Line.ins code [.reg x, y, z]).act m = .go (m.set x.index.val (f v w)) := by
  cases code <;> cases h <;> simp [ins, act, Opcode.act, Opcode.combine, Opcode.binary?, hy, hz]

theorem Line.act_paired {code : Opcode} {m : Machine} {name : String} {f : Word → Word → Word × Word}
    (h : code.paired? (m.special "rD") = some (name, f)) {x : Reg} {y z : Operand} {v w : Word}
    (hy : y.value m = some v) (hz : z.value m = some w) :
    (Line.ins code [.reg x, y, z]).act m = .go (m.setPair x.index.val name (f v w)) := by
  cases code <;> cases h <;>
    simp [ins, act, Opcode.act, Opcode.combine, Opcode.binary?, Opcode.paired?, hy, hz]

theorem Line.act_test {code : Opcode} {taken : Word → Bool} (h : code.test? = some taken)
    {m : Machine} {x : Reg} {label : String} : (Line.ins code [.reg x, .sym label]).act m =
      if taken (m.regs x.index.val) then .jump label else .go m := by
  cases code <;> cases h <;> rfl

/-- The position of the line with a label. -/
def target? (code : List Line) (label : String) : Option Nat :=
  code.findIdx? fun l => l.label? == some label

/-- One line of the code. -/
def step? (code : List Line) (here : Nat × Machine) : Option (Nat × Machine) :=
  match code[here.1]? with
  | none => none
  | some l =>
    match l.act here.2 with
    | .go m => some (here.1 + 1, m)
    | .jump label => (target? code label).map (·, here.2)
    | .stop => none

/-- Running the code from one position and machine leads to another. -/
abbrev Reaches (code : List Line) : Nat × Machine → Nat × Machine → Prop :=
  Relation.ReflTransGen fun a b => step? code a = some b

/-- How control leaves a run of lines. -/
inductive Exit where
  | fall
  | jump (label : String)
  | stop (line : Line)
  deriving DecidableEq

/-- Lines one after the other, up to the first that does not go on to the next. -/
def run : List Line → Machine → Machine × Exit
  | [], m => (m, .fall)
  | l :: lines, m =>
    match l.act m with
    | .go m' => run lines m'
    | .jump label => (m, .jump label)
    | .stop => (m, .stop l)

@[simp] theorem run_nil (m : Machine) : run [] m = (m, .fall) := rfl

theorem run_test {code : Opcode} {taken : Word → Bool} (h : code.test? = some taken) (m : Machine)
    (x : Reg) (label : String) : run [.ins code [.reg x, .sym label]] m =
      (m, if taken (m.regs x.index.val) then .jump label else .fall) := by
  rw [run, Line.act_test h]
  cases taken (m.regs x.index.val) <;> rfl

theorem run_append {a b : List Line} {m m' : Machine} (h : run a m = (m', .fall)) :
    run (a ++ b) m = run b m' := by
  induction a generalizing m with
  | nil =>
    cases h
    rfl
  | cons l a ih =>
    rw [run] at h
    rw [List.cons_append, run]
    cases hl : l.act m with
    | go m₁ =>
      rw [hl] at h
      exact ih h
    | jump label =>
      rw [hl] at h
      cases h
    | stop =>
      rw [hl] at h
      cases h

/-- Lines stand in the code at a position, but for their labels. -/
def Line.At (code : List Line) (p : Nat) (block : List Line) : Prop :=
  ∃ before here after, code = before ++ here ++ after ∧ before.length = p ∧
    here.map Line.unlabel = block.map Line.unlabel

theorem Line.At.cons {code : List Line} {p : Nat} {l : Line} {block : List Line}
    (h : Line.At code p (l :: block)) :
    (∃ l', code[p]? = some l' ∧ l'.unlabel = l.unlabel) ∧ Line.At code (p + 1) block := by
  obtain ⟨before, here, after, rfl, rfl, he⟩ := h
  cases here with
  | nil => simp at he
  | cons l' here =>
    obtain ⟨hl, he⟩ := List.cons.inj he
    exact ⟨⟨l', by simp, hl⟩, before ++ [l'], here, after, by simp, by simp, he⟩

/-- Where a run of lines leads that stand in the code at position `p`, with the lines that come after
them at position `q`. -/
def Exit.Leads (code : List Line) (p q : Nat) (m m' : Machine) : Exit → Prop
  | fall => Reaches code (p, m) (q, m')
  | jump label => ∀ t, target? code label = some t → Reaches code (p, m) (t, m')
  | stop line => ∃ t l, Reaches code (p, m) (t, m') ∧ code[t]? = some l ∧ l.unlabel = line.unlabel

theorem leads_of_run {code : List Line} {p : Nat} {block : List Line} {m m' : Machine} {e : Exit}
    (h : Line.At code p block) (hr : run block m = (m', e)) :
    e.Leads code p (p + block.length) m m' := by
  induction block generalizing p m with
  | nil =>
    cases hr
    exact .refl
  | cons l block ih =>
    obtain ⟨⟨l', hl', hl⟩, hrest⟩ := h.cons
    -- A label on the line does not change what it does.
    have hact : l'.act m = l.act m := by rw [← Line.act_unlabel m l', hl, Line.act_unlabel]
    rw [run] at hr
    cases hgo : l.act m with
    | go m₁ =>
      rw [hgo] at hr
      have hstep : step? code (p, m) = some (p + 1, m₁) := by simp [step?, hl', hact, hgo]
      have hh := ih hrest hr
      cases e with
      | fall =>
        have hlen : p + (l :: block).length = p + 1 + block.length := by
          simp only [List.length_cons]
          omega
        simp only [Exit.Leads, hlen]
        exact .head hstep hh
      | jump label => exact fun q hq => .head hstep (hh q hq)
      | stop line =>
        obtain ⟨q, x, hreach, hx, he⟩ := hh
        exact ⟨q, x, .head hstep hreach, hx, he⟩
    | jump label =>
      rw [hgo] at hr
      cases hr
      intro q hq
      exact .single (by simp [step?, hl', hact, hgo, hq])
    | stop =>
      rw [hgo] at hr
      cases hr
      exact ⟨p, l', .refl, hl', hl⟩

end CilMmix
