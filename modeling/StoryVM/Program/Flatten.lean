import StoryVM.Program.Op

/-! # Flattening expressions

An expression becomes the list of its operations, operands first. The tree is walked with a list of
pending tasks, so that its depth costs no recursion; the result is the postorder of the tree. -/

namespace StoryVM

/-- What is left to do in a walk: visit a subtree, or emit the operation of a node whose operands
have been emitted. -/
inductive Task where
  | visit (e : Expr)
  | emit (e : Expr)

namespace Task

/-- A bound on the number of steps that the task takes. -/
def weight : Task → Nat
  | visit e => 2 * e.size
  | emit _ => 1

/-- A bound on the number of steps that a list of tasks takes. -/
def totalWeight : List Task → Nat
  | [] => 0
  | t :: rest => t.weight + totalWeight rest

theorem totalWeight_visit_append (es : List Expr) (rest : List Task) :
    totalWeight (es.map visit ++ rest) = 2 * Expr.sizeAll es + totalWeight rest := by
  induction es with
  | nil => simp [Expr.sizeAll]
  | cons e es ih =>
    simp only [List.map_cons, List.cons_append, totalWeight, weight, Expr.sizeAll, ih]
    omega

/-- Works off the tasks, appending the operations they emit. -/
def run (tasks : List Task) (ops : Array Op) : Array Op :=
  match tasks with
  | [] => ops
  | visit e :: rest => run (e.children.map visit ++ emit e :: rest) ops
  | emit e :: rest => run rest (ops.push e.op)
termination_by totalWeight tasks
decreasing_by
  · have := e.size_eq
    simp only [totalWeight_visit_append, totalWeight, weight]
    omega
  · simp only [totalWeight, weight]
    omega

end Task

/-- **The operations of an expression**, operands first. -/
def Expr.flatten (e : Expr) : List Op := (Task.run [.visit e] #[]).toList

end StoryVM
