import Std.Data.TreeMap
import StoryVM.Ir.Stmt

/-! # Transforming statements

A `Transform` rebuilds statements bottom-up, with one hook for label numbers and one for expression
nodes whose operands have been rebuilt already. The hooks default to the identity, and then the
whole transform is the identity (`Transform.stmt_default`).

A `Renaming` is a finite map on labels; applied to a statement it replaces every label number once,
leaving labels outside its domain alone. -/

namespace StoryVM

/-- A bottom-up transform of statements. -/
structure Transform where
  /-- The new number of a label. -/
  label : Label → Label := id
  /-- The new form of a node whose operands are in their new form. -/
  node : Expr → Expr := id

namespace Transform

mutual

/-- The transform of an expression. -/
def expr (t : Transform) : Expr → Expr
  | .const value => t.node (.const value)
  | .readLocal var => t.node (.readLocal var)
  | .load width address => t.node (.load width (expr t address))
  | .arith op l r => t.node (.arith op (expr t l) (expr t r))
  | .compare op l r => t.node (.compare op (expr t l) (expr t r))
  | .convert width signed value => t.node (.convert width signed (expr t value))
  | .call address args => t.node (.call (expr t address) (exprs t args))
  | .callCounted address count => t.node (.callCounted (expr t address) (expr t count))
  | .pop => t.node .pop
  | .glk args => t.node (.glk (exprs t args))
  | .memorySize => t.node .memorySize

/-- The transform of a list of expressions. -/
def exprs (t : Transform) : List Expr → List Expr
  | [] => []
  | e :: rest => expr t e :: exprs t rest

end

/-- The transform of a statement, guarded statements included. -/
def stmt (t : Transform) : Stmt → Stmt
  | .label l => .label (t.label l)
  | .eval value => .eval (t.expr value)
  | .writeLocal var value => .writeLocal var (t.expr value)
  | .store width address value => .store width (t.expr address) (t.expr value)
  | .push value => .push (t.expr value)
  | .copyStack count => .copyStack (t.expr count)
  | .jump l => .jump (t.label l)
  | .branch cond guarded => .branch (t.expr cond) (stmt t guarded)
  | .ret value => .ret (t.expr value)
  | .quit => .quit
  | .putChar value => .putChar (t.expr value)
  | .putNumber value => .putNumber (t.expr value)
  | .putString address => .putString (t.expr address)
  | .restoreUndo => .restoreUndo

mutual

/-- Without a node hook, expressions stay as they are. -/
theorem expr_of_node_id (f : Label → Label) : ∀ e : Expr, expr { label := f } e = e
  | .const _ | .readLocal _ | .pop | .memorySize => rfl
  | .load _ a => by simp [expr, expr_of_node_id f a]
  | .arith _ l r => by simp [expr, expr_of_node_id f l, expr_of_node_id f r]
  | .compare _ l r => by simp [expr, expr_of_node_id f l, expr_of_node_id f r]
  | .convert _ _ a => by simp [expr, expr_of_node_id f a]
  | .call a as => by simp [expr, expr_of_node_id f a, exprs_of_node_id f as]
  | .callCounted l r => by simp [expr, expr_of_node_id f l, expr_of_node_id f r]
  | .glk as => by simp [expr, exprs_of_node_id f as]

theorem exprs_of_node_id (f : Label → Label) : ∀ es : List Expr, exprs { label := f } es = es
  | [] => rfl
  | e :: rest => by simp [exprs, expr_of_node_id f e, exprs_of_node_id f rest]

end

/-- **The default transform is the identity.** -/
theorem stmt_default (s : Stmt) : stmt {} s = s := by
  induction s <;> simp_all [stmt, expr_of_node_id id]

end Transform

/-- A finite map on labels. -/
structure Renaming where
  map : Std.TreeMap Label Label := ∅

namespace Renaming

/-- Records that `old` becomes `new`, in place of what was recorded for it before. -/
def insert (r : Renaming) (old new : Label) : Renaming := ⟨r.map.insert old new⟩

/-- The number of labels with a recorded new number. -/
def size (r : Renaming) : Nat := r.map.size

/-- Whether nothing is recorded. -/
def isEmpty (r : Renaming) : Bool := r.map.isEmpty

/-- The new number of a label: itself if none is recorded. -/
def apply (r : Renaming) (l : Label) : Label := (r.map.get? l).getD l

/-- The renaming as a transform of statements. -/
def toTransform (r : Renaming) : Transform := { label := r.apply }

/-- **Renaming** the labels of a statement, all at once. -/
def rename (r : Renaming) (s : Stmt) : Stmt := r.toTransform.stmt s

end Renaming

end StoryVM
