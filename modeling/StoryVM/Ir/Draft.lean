import StoryVM.Fault
import StoryVM.Ir.Body

/-! # Drafting a body

A draft collects statements and locals while a routine is being read. Labels are handed out before
their position is known and are placed later; each must be placed exactly once before the draft can
be finished. -/

namespace StoryVM

/-- **A body under construction.** -/
structure Draft where
  stmts : Array Stmt := #[]
  locals : Array Local := #[]
  /-- For each label handed out, whether it has been placed. -/
  marked : Array Bool := #[]
  deriving DecidableEq, Repr

namespace Draft

/-- The number of labels handed out. -/
def labelCount (d : Draft) : Nat := d.marked.size

/-- Hands out a new label. -/
def newLabel (d : Draft) : Label × Draft :=
  (d.marked.size, { d with marked := d.marked.push false })

/-- Whether a label has been placed. -/
def isMarked (d : Draft) (l : Label) : Bool := d.marked.getD l false

/-- Appends a statement. -/
def add (d : Draft) (s : Stmt) : Draft := { d with stmts := d.stmts.push s }

/-- **Places a label** at the current position. -/
def mark (d : Draft) (l : Label) : Except Fault Draft :=
  match d.marked[l]? with
  | none => .error (.foreignLabel l)
  | some true => .error (.labelAlreadyMarked l)
  | some false => .ok { d.add (.label l) with marked := d.marked.setIfInBounds l true }

/-- Declares the next local. -/
def declareLocal (d : Draft) (w : Width) : Local × Draft :=
  let var : Local := ⟨d.locals.size, w⟩
  (var, { d with locals := d.locals.push var })

/-- **Finishes the body.** The lowest label that was never placed is reported. -/
def finish (d : Draft) : Except Fault Body :=
  match d.marked.toList.findIdx? (· = false) with
  | some l => .error (.unmarkedLabel l)
  | none => .ok (Body.normalize d.stmts.toList d.locals.toList)

end Draft

end StoryVM
