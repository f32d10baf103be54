import StoryVM.Graph
import StoryVM.Program.Flatten

/-! # Flat programs

A body is laid out as one array of operations, its blocks in label order, so that falling off the
end of a block runs straight into the next. Expressions are flat, operands first, so a run can stop
in the middle of one and go on later from its position and its operand stack. -/

namespace StoryVM

/-- **A flat program.** -/
structure Program where
  ops : Array Op := #[]
  /-- For each label, the position where its block starts. -/
  starts : Array Nat := #[]
  deriving DecidableEq, Repr

/-- **The operations of a statement** whose first operation stands at position `base`. A guarded
return is skipped by a jump to the position right after it. -/
def Stmt.flatten (base : Nat) : Stmt → Except Fault (List Op)
  | label l => .ok [.enter l]
  | eval value => .ok (value.flatten ++ [.discard])
  | writeLocal var value => .ok (value.flatten ++ [.writeLocal var.index])
  | store width address value => .ok (address.flatten ++ value.flatten ++ [.store width])
  | push value => .ok (value.flatten ++ [.push])
  | copyStack count => .ok (count.flatten ++ [.copyStack])
  | jump l => .ok [.jump l]
  | branch cond (jump l) => .ok (cond.flatten ++ [.jumpIf l])
  | branch cond (ret value) =>
    let test := cond.flatten
    let body := value.flatten ++ [.ret]
    .ok (test ++ .skipUnless (base + test.length + 1 + body.length) :: body)
  | branch _ guarded => .error (.defect (.guard guarded))
  | ret value => .ok (value.flatten ++ [.ret])
  | quit => .ok [.quit]
  | putChar value => .ok (value.flatten ++ [.putChar])
  | putNumber value => .ok (value.flatten ++ [.putNumber])
  | putString address => .ok (address.flatten ++ [.putString])
  | restoreUndo => .ok [.restoreUndo]

namespace Program

/-- Appends the operations of a statement. -/
def addStmt (p : Program) (s : Stmt) : Except Fault Program := do
  return { p with ops := p.ops ++ (← s.flatten p.ops.size) }

/-- Appends the block of a label of the body: its start, and the operations of its statements. -/
def addBlock (b : Body) (p : Program) (index : Nat) (span : Span) : Except Fault Program :=
  if index < p.starts.size then
    if span.first ≤ span.last ∧ span.last ≤ b.stmts.length then
      ((b.stmts.drop span.first).take (span.last - span.first)).foldlM addStmt
        { p with starts := p.starts.setIfInBounds index p.ops.size }
    else .error (.defect (.blockOutOfRange index))
  else .error (.defect (.blockWithoutLabel index))

/-- Appends the blocks from a label on. -/
def addBlocks (b : Body) (p : Program) (index : Nat) : List Span → Except Fault Program
  | [] => .ok p
  | span :: rest => do addBlocks b (← addBlock b p index span) (index + 1) rest

/-- **Lays out a body**, block by block in label order. -/
def ofBody (b : Body) (g : Graph) : Except Fault Program :=
  addBlocks b { starts := Array.replicate b.labelCount 0 } 0 g.spans.toList

/-- The program that returns the value of an expression. -/
def ofExpr (e : Expr) : Program := { ops := (e.flatten ++ [Op.ret]).toArray }

/-- Where the block of a label starts. -/
def start (p : Program) (l : Label) : Except Fault Nat :=
  match p.starts[l]? with
  | some position => .ok position
  | none => .error (.defect (.missingLabel l))

end Program

end StoryVM
