import StoryVM.Fault
import StoryVM.Ir.Body

/-! # The control-flow graph of a body

Every label opens a basic block, so a block is a contiguous stretch of statements and one pass over
the body finds all blocks and edges. An entry block stands before the first statement and an exit
block stands for every way of leaving the routine, running off the end included.

* `Graph.ofBody` builds the graph; it fails if a branch guards something other than a jump or a
  return, or if an edge would lead to a label that the body does not have.
* `Graph.successors` and `Graph.predecessors` read the edges off in block order. -/

namespace StoryVM

/-- A stretch of statements, from `first` up to but not including `last`. -/
structure Span where
  first : Nat := 0
  last : Nat := 0
  deriving DecidableEq, Repr

/-- Whether the stretch has no statements. -/
def Span.isEmpty (s : Span) : Bool := decide (s.last ≤ s.first)

/-- A way for control to pass from one block to another. -/
structure Edge where
  source : BlockId
  target : BlockId
  deriving DecidableEq, Repr

/-- **A control-flow graph.** -/
structure Graph where
  /-- The statements before the first label; none in a normal body. -/
  entrySpan : Span := {}
  /-- The statements of each label's block. -/
  spans : Array Span
  /-- The edges, each at least once. -/
  edges : List Edge := []
  deriving DecidableEq, Repr

namespace Graph

/-- The number of label blocks. -/
def labelCount (g : Graph) : Nat := g.spans.size

/-- Whether the graph has the block. -/
def has (g : Graph) : BlockId → Bool
  | .entry | .exit => true
  | .label i => decide (i < g.labelCount)

/-- All blocks, in block order. -/
def blockIds (g : Graph) : List BlockId :=
  .entry :: ((List.range g.labelCount).map .label ++ [.exit])

/-- The number of blocks, entry and exit included. -/
def size (g : Graph) : Nat := g.labelCount + 2

/-- The statements of a block. -/
def span (g : Graph) : BlockId → Span
  | .entry => g.entrySpan
  | .label i => g.spans.getD i {}
  | .exit => {}

/-- The blocks that control can pass to from `b`, in block order. -/
def successors (g : Graph) (b : BlockId) : List BlockId :=
  BlockId.ordered ((g.edges.filter (·.source = b)).map (·.target))

/-- The blocks that control can come to `b` from, in block order. -/
def predecessors (g : Graph) (b : BlockId) : List BlockId :=
  BlockId.ordered ((g.edges.filter (·.target = b)).map (·.source))

/-- The first block to run. -/
def start (g : Graph) : BlockId := (g.successors .entry).headD .exit

/-- The block that follows `b` when control falls off its end. -/
def fallThrough (g : Graph) : BlockId → BlockId
  | .entry => g.start
  | .label i => if i + 1 < g.labelCount then .label (i + 1) else .exit
  | .exit => .exit

/-! ## Construction -/

/-- Adds an edge between two blocks of the graph. -/
def addEdge (g : Graph) (source target : BlockId) : Except Fault Graph :=
  if !g.has target then .error (.defect (.missingTarget source target))
  else if !g.has source then .error (.defect (.missingBlock source))
  else .ok { g with edges := ⟨source, target⟩ :: g.edges }

/-- Changes the statements of a block of the graph. -/
def mapSpan (g : Graph) (b : BlockId) (f : Span → Span) : Except Fault Graph :=
  match b with
  | .entry => .ok { g with entrySpan := f g.entrySpan }
  | .label i =>
    match g.spans[i]? with
    | some s => .ok { g with spans := g.spans.setIfInBounds i (f s) }
    | none => .error (.defect (.missingBlock b))
  | .exit => .ok g

/-- A graph part way through its body: the block that the last statement lies in, and whether
control falls from that statement into the next one. -/
structure Scan where
  graph : Graph
  current : BlockId := .entry
  falls : Bool := true

/-- Adds the edges of the statement at a position, and moves to the block it opens if it is a
label. -/
def Scan.visit (s : Scan) (position : Nat) : Stmt → Except Fault Scan
  | .label l => do
    let g ← if s.falls then s.graph.addEdge s.current (.label l) else .ok s.graph
    let g ← g.mapSpan (.label l) fun _ => ⟨position, position⟩
    return { s with graph := g, current := .label l }
  | .jump l => return { s with graph := ← s.graph.addEdge s.current (.label l) }
  | .branch _ (.jump l) => return { s with graph := ← s.graph.addEdge s.current (.label l) }
  | .branch _ (.ret _) => return { s with graph := ← s.graph.addEdge s.current .exit }
  | .branch _ guarded => .error (.defect (.guardAt position guarded))
  | .ret _ | .quit => return { s with graph := ← s.graph.addEdge s.current .exit }
  | _ => return s

/-- Takes one statement into its block. -/
def Scan.step (s : Scan) (position : Nat) (stmt : Stmt) : Except Fault Scan := do
  let s ← s.visit position stmt
  let g ← s.graph.mapSpan s.current fun span => { span with last := position + 1 }
  return { s with graph := g, falls := !stmt.isTerminator }

/-- Takes the statements from a position on into their blocks. -/
def Scan.run (s : Scan) (position : Nat) : List Stmt → Except Fault Scan
  | [] => .ok s
  | stmt :: rest => do (← s.step position stmt).run (position + 1) rest

/-- **The control-flow graph of a body.** -/
def ofBody (b : Body) : Except Fault Graph := do
  let s ← Scan.run { graph := { spans := Array.replicate b.labelCount {} } } 0 b.stmts
  if s.falls then s.graph.addEdge s.current .exit else return s.graph

end Graph

end StoryVM
