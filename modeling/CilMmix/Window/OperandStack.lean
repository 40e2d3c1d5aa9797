import CilMmix.Window.Frame

/-! The operand stack. Its values occupy the registers after the frame without gaps. -/

namespace CilMmix

structure OperandStack where
  /-- The first register for operands. -/
  base : Nat
  /-- The operands, top first. -/
  elems : List Element := []

/-- Registers of the operands: first register and number of words of each, top first. -/
def shape (elems : List Element) : List (Nat × Nat) :=
  elems.map fun e => (e.offset, e.size.words)

def sameShape (a b : List Element) : Bool := shape a == shape b

/-- The types of the operands, from the bottom up. -/
def describe (elems : List Element) : String :=
  Text.commaList (elems.reverse.map fun e => e.ty.text)

namespace OperandStack

def ofFrame (f : Frame) : OperandStack := ⟨f.stop, []⟩

/-- One past the registers in use. -/
def top (s : OperandStack) : Nat :=
  match s.elems with
  | [] => s.base
  | e :: _ => e.stop

def depth (s : OperandStack) : Nat := s.elems.length

/-- Adds a value; one of no size leaves no trace. -/
def push (s : OperandStack) (ty : TypeRef) (size : Size) (origin : Option String) :
    Except Fault OperandStack :=
  if size.isZero then .ok s
  else
    let stop := s.top + size.words
    if registerCount < stop then .error (.registerExhausted (stop - 1))
    else .ok { s with elems := ⟨s.top, size, ty, origin⟩ :: s.elems }

/-- Takes the top value off: its first register, its type, and what remains. -/
def pop (s : OperandStack) : Except Fault ((Reg × TypeRef) × OperandStack) :=
  match s.elems with
  | [] => .error (.stackDiscipline .popEmpty)
  | e :: rest => do
    return ((← Reg.ofIndex e.offset, e.ty), { s with elems := rest })

/-- The value `index` places below the top. -/
def peek (s : OperandStack) (index : Nat) : Except Fault Element :=
  match s.elems[index]? with
  | some e => .ok e
  | none => .error (.stackDiscipline (.tooDeep index s.depth))

/-- The register of one word of that value. -/
def reg (s : OperandStack) (index word : Nat) : Except Fault Reg := do
  Reg.ofIndex ((← s.peek index).offset + word)

def text (s : OperandStack) : String :=
  "[" ++ Text.commaList (s.elems.reverse.map Element.text) ++ "]"

end OperandStack

end CilMmix
