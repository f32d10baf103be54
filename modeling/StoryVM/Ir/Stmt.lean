import StoryVM.Ir.Expr

/-! # Statements

A routine's body is a flat list of statements. Control flow is expressed by label statements and
jumps to them; a branch guards one statement, which in a well-formed body is a jump or a return. -/

namespace StoryVM

/-- A label: its number in the label table of the body it belongs to. -/
abbrev Label := Nat

/-- **Statements.** -/
inductive Stmt where
  /-- The position of a label. -/
  | label (l : Label)
  /-- Evaluate and forget. -/
  | eval (value : Expr)
  /-- Assign a local. -/
  | writeLocal (var : Local) (value : Expr)
  /-- Store to memory. -/
  | store (width : Width) (address value : Expr)
  /-- Push a dword on the value stack. -/
  | push (value : Expr)
  /-- Repeat the top dwords of the value stack. -/
  | copyStack (count : Expr)
  /-- Continue at a label. -/
  | jump (l : Label)
  /-- When the condition is not zero, do the guarded statement. -/
  | branch (cond : Expr) (guarded : Stmt)
  /-- Return from the routine. -/
  | ret (value : Expr)
  /-- Halt the machine. -/
  | quit
  /-- Print a character. -/
  | putChar (value : Expr)
  /-- Print a signed decimal number. -/
  | putNumber (value : Expr)
  /-- Print the string object at an address. -/
  | putString (address : Expr)
  /-- Ask the host to go back to its last saved state. -/
  | restoreUndo
  deriving DecidableEq, Repr, Inhabited

namespace Stmt

/-- Whether control never falls from the statement into the next one. -/
def isTerminator : Stmt → Bool
  | jump _ | ret _ | quit => true
  | _ => false

/-- The label that the statement opens, if it is a label statement. -/
def label? : Stmt → Option Label
  | label l => some l
  | _ => none

/-- The label that the statement jumps to directly. -/
def jump? : Stmt → Option Label
  | jump l => some l
  | _ => none

end Stmt

end StoryVM
