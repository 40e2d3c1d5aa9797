import CilMmix.Lowering.Instruction
import CilMmix.Method.Path

/-! Walking through a method body along its control flow. Every instruction that is reached gets its
code once, for the operand stack of the first arrival; later arrivals must agree with its shape. -/

namespace CilMmix

/-- What became of an instruction that was reached. -/
structure Visit where
  /-- The operands at the first arrival, top first. -/
  arrival : List Element
  lines : List Line

/-- An instruction and its visit, if it was reached. -/
structure Stop where
  instruction : Instruction
  visit : Option Visit := none

structure Walk where
  /-- Positions to go to, with the operands to bring along. -/
  queue : List (Nat × List Element)
  stops : List Stop
  session : Session

/-- What does not change during a walk. -/
structure Route where
  site : Site
  annotate : Bool
  body : List Instruction

namespace Route

/-- The label of an instruction: only targets of branches have one. -/
def label? (route : Route) (offset : UInt32) : Option String :=
  if (targets route.body).contains offset then some (route.site.branchLabel offset) else none

/-- The code of an instruction for the operands it finds, and the operands it leaves. -/
def visit (route : Route) (i : Instruction) (arriving : List Element) (session : Session) :
    Except Fault (List Line × LowerState) :=
  (Lower.piece route.annotate route.site (route.label? i.offset) i).run
    { session with stack := ⟨route.site.frame.stop, arriving⟩ }

end Route

namespace Walk

/-- Instructions that were not reached so far. -/
def unvisited (stops : List Stop) : Nat := stops.countP fun s => s.visit.isNone

/-- Comes by where there is nothing to translate. A position after the last instruction is left alone. -/
def pass (w : Walk) (i : Nat) (arriving : List Element) (queue : List (Nat × List Element)) :
    Except Fault Walk :=
  match w.stops[i]? with
  | some ⟨instruction, some first⟩ =>
    if sameShape first.arrival arriving then .ok { w with queue }
    else .error (.shapeMismatch instruction.offset (describe first.arrival) (describe arriving))
  | _ => .ok { w with queue }

/-- Keeps the code of an instruction, and goes on from it with the operands that it leaves. -/
def record (body : List Instruction) (w : Walk) (i : Nat) (instruction : Instruction)
    (arriving : List Element) (queue : List (Nat × List Element)) (made : List Line × LowerState) :
    Except Fault Walk := do
  let further ← onward body i instruction.op.flow
  let bring (j : Nat) : Nat × List Element := (j, made.2.stack.elems)
  return {
    queue := further.ahead.toList.map bring ++ queue ++ further.aside.toList.map bring
    stops := w.stops.set i ⟨instruction, some ⟨arriving, made.1⟩⟩
    session := made.2.toSession }

/-- Arrives at a position. Only an instruction that has no code so far is translated. -/
def step (route : Route) (w : Walk) (i : Nat) (arriving : List Element)
    (queue : List (Nat × List Element)) : Except Fault Walk :=
  match w.stops[i]? with
  | some ⟨instruction, none⟩ =>
    route.visit instruction arriving w.session >>= w.record route.body i instruction arriving queue
  | _ => w.pass i arriving queue

/-- An upper bound on the steps to come. -/
def remaining (w : Walk) : Nat := 2 * unvisited w.stops + w.queue.length

theorem unvisited_set {stops : List Stop} {i : Nat} {instruction : Instruction} (v : Visit)
    (h : stops[i]? = some ⟨instruction, none⟩) :
    unvisited (stops.set i ⟨instruction, some v⟩) + 1 = unvisited stops := by
  obtain ⟨hi, he⟩ := List.getElem?_eq_some_iff.mp h
  have hpos : 0 < unvisited stops :=
    List.countP_pos_iff.mpr ⟨_, List.getElem_mem hi, by simp [he]⟩
  simp only [unvisited, List.countP_set hi, he] at hpos ⊢
  simp
  omega

theorem remaining_step {route : Route} {w w' : Walk} {i : Nat} {arriving : List Element}
    {queue : List (Nat × List Element)} (hq : w.queue = (i, arriving) :: queue)
    (h : w.step route i arriving queue = .ok w') : w'.remaining < w.remaining := by
  unfold step at h
  split at h
  case h_2 =>
    unfold pass at h
    split at h
    · split at h
      · cases h
        simp [remaining, hq]
      · cases h
    · cases h
      simp [remaining, hq]
  case h_1 instruction hs =>
    simp only [bind, Except.bind, record] at h
    split at h
    · cases h
    case h_2 code _ =>
      split at h
      · cases h
      case h_2 further _ =>
        cases h
        have hu := unvisited_set ⟨arriving, code.1⟩ hs
        have ha : further.ahead.toList.length ≤ 1 := by cases further.ahead <;> simp
        have hb : further.aside.toList.length ≤ 1 := by cases further.aside <;> simp
        simp only [remaining, hq, List.length_append, List.length_map, List.length_cons]
        omega

/-- Walks until there is nowhere left to go. -/
def run (route : Route) (w : Walk) : Except Fault Walk :=
  match _hq : w.queue with
  | [] => .ok w
  | (i, arriving) :: queue =>
    match _hs : w.step route i arriving queue with
    | .error fault => .error fault
    | .ok w' => run route w'
termination_by w.remaining
decreasing_by exact remaining_step _hq _hs

/-- The start of a walk, at the first instruction and without operands. -/
def start (body : List Instruction) (session : Session) : Walk :=
  ⟨[(0, [])], body.map fun i => ⟨i, none⟩, session⟩

/-- The code of the instructions that were reached, in the order of the body. -/
def lines (w : Walk) : List Line :=
  w.stops.flatMap fun s =>
    match s.visit with
    | some v => v.lines
    | none => []

end Walk

end CilMmix
