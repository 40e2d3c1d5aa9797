import CilMmix.Assembly.Line

/-! Copying a run of registers to another place, also one that overlaps it. -/

namespace CilMmix

/-- Lines as far as they could be written, and what stopped the writing. -/
structure Draft where
  lines : List Line
  fault : Option Fault

namespace Draft

def empty : Draft := ⟨[], none⟩

/-- Nothing can be written. -/
def stopped (fault : Fault) : Draft := ⟨[], some fault⟩

/-- One more line in front. -/
def cons (d : Draft) (line : Line) : Draft := { d with lines := line :: d.lines }

/-- All lines, or the fault. -/
def complete (d : Draft) : Except Fault (List Line) :=
  match d.fault with
  | none => .ok d.lines
  | some fault => .error fault

end Draft

/-- Copies word `i` of a run. -/
def copyWord (source dest i : Nat) : Except Fault Line := do
  let into ← Reg.ofIndex (dest + i)
  let value ← Reg.ofIndex (source + i)
  return .ins .set [.reg into, .reg value]

/-- Copies the first `count` words of a run, the last of them first. -/
def copyDownward (source dest : Nat) : Nat → Draft
  | 0 => .empty
  | count + 1 =>
    match copyWord source dest count with
    | .ok line => (copyDownward source dest count).cons line
    | .error fault => .stopped fault

/-- Copies `count` words of a run from word `i` on. -/
def copyUpward (source dest i : Nat) : Nat → Draft
  | 0 => .empty
  | count + 1 =>
    match copyWord source dest i with
    | .ok line => (copyUpward source dest (i + 1) count).cons line
    | .error fault => .stopped fault

/-- Copies `count` registers. A copy to higher registers begins with the last word, one to lower
registers with the first, so that no word is overwritten before it is read. The indices are not bounded
here: where `source + count` or `dest + count` is past `2 ^ 64`, as in `copyWords 0 (2 ^ 64 - 1) 2`, machine
words would wrap around and the copy could begin before it is turned down. -/
def copyWords (source dest count : Nat) : Draft :=
  if source = dest then .empty
  else if source < dest then copyDownward source dest count
  else copyUpward source dest 0 count

end CilMmix
