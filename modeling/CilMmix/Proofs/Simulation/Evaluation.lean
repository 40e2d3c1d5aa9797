import CilMmix.Method.Path
import CilMmix.Module.Basic
import CilMmix.Proofs.Machine.Basic

/-! What a method body computes: a stack machine whose values are lists of 64-bit words. It covers
variables, integers, conversions, comparisons and branches, and knows no registers. -/

namespace CilMmix

/-- The words of a value. -/
abbrev Value := List Word

structure Store where
  args : List Value
  locals : List Value
  /-- The operands, top first. -/
  stack : List Value

/-- Why evaluation ends. -/
inductive Halt where
  | returned (v : Value)
  /-- Control went past the last instruction. -/
  | overrun
  /-- An operand of several words where a number is wanted, or a value that is wider or narrower than
  the place it goes to. -/
  | misfit
  | stuck

namespace Store

/-- Puts a value on the stack, also one without words. -/
def push (s : Store) (v : Value) : Store := { s with stack := v :: s.stack }

def lookup? (s : Store) : Variable → Option Value
  | .arg i => s.args[i.toNat]?
  | .loc i => s.locals[i.toNat]?

def setVariable (s : Store) (v : Value) : Variable → Store
  | .arg i => { s with args := s.args.set i.toNat v }
  | .loc i => { s with locals := s.locals.set i.toNat v }

/-- Takes a number off the stack. -/
def popNumber (s : Store) : Except Halt (Word × Store) :=
  match s.stack with
  | [] => .error .stuck
  | [w] :: rest => .ok (w, { s with stack := rest })
  | _ :: _ => .error .misfit

/-- Takes two numbers off the stack, of which the second was on top. -/
def popNumbers (s : Store) : Except Halt ((Word × Word) × Store) :=
  match s.stack with
  | [] | [_] => .error .stuck
  | [b] :: [a] :: rest => .ok ((a, b), { s with stack := rest })
  | _ :: _ :: _ => .error .misfit

end Store

/-- Division is left out. -/
def Arith.eval? : Arith → Option (Word → Word → Word)
  | add => some (· + ·)
  | sub => some (· - ·)
  | mul => some (· * ·)
  | and => some (· &&& ·)
  | or => some (· ||| ·)
  | xor => some (· ^^^ ·)
  | shl => some fun a b => a <<< b.toNat
  | shr => some fun a b => a.sshiftRight b.toNat
  | shrUn => some fun a b => a >>> b.toNat
  | div | divUn | rem | remUn => none

def Comparison.holds : Comparison → Word → Word → Bool
  | eq, a, b => a == b
  | gt, a, b => b.slt a
  | gtUn, a, b => b.ult a
  | lt, a, b => a.slt b
  | ltUn, a, b => a.ult b

def Condition.holds : Condition → Word → Word → Bool
  | eq, a, b => a == b
  | ge, a, b => !a.slt b
  | gt, a, b => b.slt a
  | le, a, b => !b.slt a
  | lt, a, b => a.slt b
  | neUn, a, b => a != b
  | geUn, a, b => !a.ult b
  | gtUn, a, b => b.ult a
  | leUn, a, b => !b.ult a
  | ltUn, a, b => a.ult b

/-- What a conversion keeps of a word: the low byte, the low two bytes, or all of it. These are the
conversions as they are specified; there is no extension of a sign, and none to 32 bits. -/
def Conversion.keep : Conversion → Word → Word
  | i1, w | u1, w => w &&& 0xFF
  | i2, w | u2, w => w &&& 0xFFFF
  | _, w => w

def Literal.word? : Literal → Option Word
  | null => some 0
  | int32 n => some (n.toBitVec.signExtend 64)
  | int64 n => some n.toBitVec
  | real32 _ | real64 _ | str _ => none

namespace Op

/-- The instructions that evaluation covers. -/
def isScalar : Op → Bool
  | nop | load _ | store _ | dup | pop | neg | not | compare _ | br _ | brFalse _ | brTrue _
  | brIf _ _ | ret => true
  | push l => l.word?.isSome
  | arith a => a.eval?.isSome
  | conv _ k =>
    match k with
    | .r4 | .r8 | .rUn => false
    | _ => true
  | _ => false

theorem isCall_of_isScalar {op : Op} (h : op.isScalar = true) : op.isCall = false := by
  cases op <;> first | rfl | cases h

/-- What an instruction does to the store, and the code offset it goes to if that is not the next
instruction. A method returns a value of so many words, or none. -/
def execute (returns : Option Nat) (s : Store) : Op → Except Halt (Store × Option UInt32)
  | nop => .ok (s, none)
  | load v =>
    match s.lookup? v with
    | some x => .ok (s.push x, none)
    | none => .error .stuck
  | store v =>
    match s.lookup? v, s.stack with
    | some old, x :: rest =>
      if x.length = old.length then .ok ({ s with stack := rest }.setVariable x v, none)
      else .error .misfit
    | _, _ => .error .stuck
  | push l =>
    match l.word? with
    | some w => .ok (s.push [w], none)
    | none => .error .stuck
  | dup =>
    match s.stack with
    | x :: _ => .ok (s.push x, none)
    | [] => .error .stuck
  | pop =>
    match s.stack with
    | _ :: rest => .ok ({ s with stack := rest }, none)
    | [] => .error .stuck
  | arith a =>
    match a.eval? with
    | some f => do
      let ((a, b), s) ← s.popNumbers
      return (s.push [f a b], none)
    | none => .error .stuck
  | neg => do
    let (a, s) ← s.popNumber
    return (s.push [-a], none)
  | not => do
    let (a, s) ← s.popNumber
    return (s.push [~~~a], none)
  | conv _ k =>
    match s.stack with
    | (w :: _) :: rest => .ok ({ s with stack := [k.keep w] :: rest }, none)
    | _ => .error .stuck
  | compare c => do
    let ((a, b), s) ← s.popNumbers
    return (s.push [if c.holds a b then 1 else 0], none)
  | br t => .ok (s, some t)
  | brTrue t => do
    let (a, s) ← s.popNumber
    return (s, if a != 0 then some t else none)
  | brFalse t => do
    let (a, s) ← s.popNumber
    return (s, if a == 0 then some t else none)
  | brIf c t => do
    let ((a, b), s) ← s.popNumbers
    return (s, if c.holds a b then some t else none)
  | ret =>
    match returns, s.stack with
    | none, _ => .error (.returned [])
    | some n, x :: _ => if x.length = n then .error (.returned x) else .error .misfit
    | some _, [] => .error .stuck
  | _ => .error .stuck

end Op

/-- A store and the position of the instruction that is next. -/
structure State extends Store where
  index : Nat

namespace State

def goto (body : List Instruction) (s : Store) (i : Nat) : Except Halt State :=
  if i < body.length then .ok { s with index := i } else .error .overrun

def step (body : List Instruction) (returns : Option Nat) (s : State) : Except Halt State :=
  match body[s.index]? with
  | none => .error .overrun
  | some i => do
    match ← i.op.execute returns s.toStore with
    | (store, none) => goto body store (s.index + 1)
    | (store, some t) =>
      match position? body t with
      | some j => goto body store j
      | none => .error .stuck

end State

/-- The state after so many steps from the first instruction, or why there is none. -/
def evaluate (body : List Instruction) (returns : Option Nat) (s : Store) : Nat → Except Halt State
  | 0 => State.goto body s 0
  | n + 1 => evaluate body returns s n >>= State.step body returns

end CilMmix
