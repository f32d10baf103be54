import StoryVM.Program

/-! # Routines

A routine is a body together with its graph and its flat program, both made once when the routine is
read, and a calling convention. -/

namespace StoryVM

/-- How arguments reach a routine. -/
inductive Convention where
  /-- On the value stack, with their number on top. -/
  | stackArguments
  /-- In the first locals. -/
  | localArguments
  deriving DecidableEq, Repr

/-- The name of the convention. -/
def Convention.name : Convention → String
  | stackArguments => "stack-argument"
  | localArguments => "local-argument"

/-- **A routine.** -/
structure Routine where
  convention : Convention
  /-- The address of its type byte. -/
  address : UInt32
  body : Body
  graph : Graph
  program : Program
  deriving DecidableEq, Repr

/-- The routine with the given body. -/
def Routine.ofBody (convention : Convention) (address : UInt32) (body : Body) :
    Except Fault Routine := do
  let graph ← Graph.ofBody body
  let program ← Program.ofBody body graph
  return ⟨convention, address, body, graph, program⟩

end StoryVM
