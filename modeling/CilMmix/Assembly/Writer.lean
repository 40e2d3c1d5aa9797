import CilMmix.Assembly.Line

/-! Writing assembly line by line. A label waits for the next operation; when something comes first
that must not stand before it, it gets a line of its own. -/

namespace CilMmix

structure Writer where
  /-- Whether annotations are written. -/
  annotate : Bool
  lines : List Line := []
  /-- The label that waits for an operation. -/
  pending : Option String := none

namespace Writer

/-- Gives a waiting label a line of its own. -/
def flush (w : Writer) : Writer :=
  match w.pending with
  | none => w
  | some label => { w with lines := w.lines ++ [.bare label], pending := none }

def setLabel (w : Writer) (label : String) : Writer :=
  { w.flush with pending := some label }

/-- Sets a label if there is one. -/
def setLabel? (w : Writer) : Option String → Writer
  | none => w
  | some label => w.setLabel label

/-- Adds a line. An operation takes the waiting label, unless it has its own; comments and blank lines
leave it waiting. -/
def emit (w : Writer) : Line → Writer
  | .op none code operands =>
    { w with lines := w.lines ++ [.op w.pending code operands], pending := none }
  | .op (some label) code operands =>
    { w.flush with lines := w.flush.lines ++ [.op (some label) code operands] }
  | .note none text => { w with lines := w.lines ++ [.note w.pending text], pending := none }
  | .note (some label) text => { w.flush with lines := w.flush.lines ++ [.note (some label) text] }
  | .comment text => { w with lines := w.lines ++ [.comment text] }
  | .blank => { w with lines := w.lines ++ [.blank] }
  | .verbatim text => { w.flush with lines := w.flush.lines ++ [.verbatim text] }

def emitAll (w : Writer) (lines : List Line) : Writer := lines.foldl emit w

/-- A comment that is written only on request. -/
def remark (w : Writer) (text : String) : Writer :=
  if w.annotate then w.emit (.comment text) else w

/-- Adds the lines of another writer as they are. -/
def append (w : Writer) (lines : List Line) : Writer :=
  { w.flush with lines := w.flush.lines ++ lines }

/-- A writer with the same setting and no lines. -/
def fork (w : Writer) : Writer := { annotate := w.annotate }

def finish (w : Writer) : List Line := w.flush.lines

end Writer

end CilMmix
