import Mathlib.Tactic.Common
import StoryVM.Machine.Exec

/-! # The meaning of bodies as trees

A second account of what a routine does, without flat programs, operand stacks and suspended
activations: expressions are evaluated by recursion on the tree, operands from left to right, a body
is run statement by statement, and a call is a recursive invocation that enters the routine, runs
its body and leaves it again.

* `Eval`: computations on a machine that may stop early, or run out of fuel.
* `Expr.eval`, `Stmt.exec`, `Body.run`: the meaning of expressions, statements and bodies, for a
  given meaning of calls.
* `invoke`: the meaning of calls. The fuel bounds the nesting of calls and the number of statements
  that one activation runs.
* `Expr.eval_eq`: the value of an expression is made of the values of its direct operands. Facts
  about evaluation are proved along them (`Expr.childInduction`). -/

namespace StoryVM

/-- Why a run is abandoned. -/
inductive Stop where
  /-- The machine was halted. -/
  | halt
  /-- Something went wrong. -/
  | fault (f : Fault)
  deriving DecidableEq, Repr

/-- The answer to the caller of an abandoned run. -/
def Stop.answer : Stop → Except Fault UInt32
  | halt => .ok 0
  | fault f => .error f

/-- The answer to the caller of a run. -/
def answer : Except Stop UInt32 → Except Fault UInt32
  | .ok v => .ok v
  | .error s => s.answer

/-- **A computation on a machine**, which gives a value or stops; it has no outcome if its fuel does
not suffice. -/
abbrev Eval (σ α : Type) := ExceptT Stop (StateT (Machine σ) Option) α

namespace Eval

variable {σ α β : Type}

/-- The computation whose fuel does not suffice. -/
def timeout : Eval σ α := fun _ => none

/-- An operation of the machine that may change it even if it fails. -/
def attempt (f : Machine σ → Except Fault α × Machine σ) : Eval σ α := fun m =>
  match f m with
  | (.ok a, m) => some (.ok a, m)
  | (.error e, m) => some (.error (.fault e), m)

/-- An operation of the machine that leaves it as it is. -/
def inspect (f : Machine σ → Except Fault α) : Eval σ α := attempt fun m => (f m, m)

/-- An operation of the machine that changes it unless it fails. -/
def update (f : Machine σ → Except Fault (α × Machine σ)) : Eval σ α := attempt fun m =>
  match f m with
  | .ok (a, m) => (.ok a, m)
  | .error e => (.error e, m)

/-- Halts the machine. -/
def halt : Eval σ α := fun m => some (.error .halt, m.halt)

/-- Fails. -/
def fail (f : Fault) : Eval σ α := throw (.fault f)

theorem bind_apply (x : Eval σ α) (f : α → Eval σ β) (m : Machine σ) :
    (x >>= f) m =
      match x m with
      | none => none
      | some (.ok a, m) => f a m
      | some (.error s, m) => some (.error s, m) := by
  show (x m).bind _ = _
  rcases x m with _ | ⟨_ | _, _⟩ <;> rfl

theorem pure_apply (a : α) (m : Machine σ) : (pure a : Eval σ α) m = some (.ok a, m) := rfl

/-! ## The operations of the machine -/

/-- The value of a local of the innermost frame. -/
def readLocal (index : Nat) : Eval σ UInt32 := inspect fun m => do (← m.currentFrame).read index

/-- Assigns a local of the innermost frame. -/
def writeLocal (index : Nat) (v : UInt32) : Eval σ Unit := update fun m =>
  return ((), m.setCurrentFrame (← (← m.currentFrame).write index v))

/-- The value at an address. -/
def readMemory (w : Width) (a : UInt32) : Eval σ UInt32 := inspect fun m => m.memory.read w a

/-- Stores a value at an address. -/
def writeMemory (w : Width) (a v : UInt32) : Eval σ Unit := update fun m =>
  return ((), { m with memory := ← m.memory.write w a v })

/-- The size of memory. -/
def memorySize : Eval σ UInt32 := inspect fun m => return UInt32.ofNat m.memory.size

/-- Pops a dword from the value stack. -/
def popValue : Eval σ UInt32 := update fun m => do
  let (v, stack) ← m.stack.pop .dword
  return (v, { m with stack := stack })

/-- Pops the arguments of a call from the value stack. -/
def popArguments (count : UInt32) : Eval σ (List UInt32) := update fun m => do
  let (vs, stack) ← m.stack.popArguments count
  return (vs, { m with stack := stack })

/-- Pushes a dword on the value stack. -/
def pushValue (v : UInt32) : Eval σ Unit := update fun m =>
  return ((), { m with stack := ← m.stack.push .dword v })

/-- Repeats the top dwords of the value stack. -/
def copyStack (count : UInt32) : Eval σ Unit := update fun m =>
  return ((), { m with stack := ← m.stack.copyDwords count })

/-- Counts a block. -/
def countStep : Eval σ Unit := attempt Machine.countStep

/-- The result of arithmetic. -/
def arith (op : ArithOp) (l r : UInt32) : Eval σ UInt32 :=
  match op.apply? l r with
  | some v => return v
  | none => fail .divisionByZero

/-! An operation meets the values of its operands as a list; a list of any other length than the
operation takes is a defect. -/

@[simp] def nullary (x : Eval σ α) : List UInt32 → Eval σ α
  | [] => x
  | _ => fail (.defect .operandsMissing)

@[simp] def unary (f : UInt32 → Eval σ α) : List UInt32 → Eval σ α
  | [v] => f v
  | _ => fail (.defect .operandsMissing)

@[simp] def binary (f : UInt32 → UInt32 → Eval σ α) : List UInt32 → Eval σ α
  | [l, r] => f l r
  | _ => fail (.defect .operandsMissing)

@[simp] def ternary (f : UInt32 → UInt32 → UInt32 → Eval σ α) : List UInt32 → Eval σ α
  | [u, v, w] => f u v w
  | _ => fail (.defect .operandsMissing)

@[simp] def headed (f : UInt32 → List UInt32 → Eval σ α) : List UInt32 → Eval σ α
  | v :: vs => f v vs
  | _ => fail (.defect .operandsMissing)

variable [Host σ]

/-- The answer of the host to a request. -/
def dispatch (vs : List UInt32) : Eval σ UInt32 := attempt fun m => m.dispatch vs

/-- Prints a character. -/
def putChar (code : UInt32) : Eval σ Unit := update fun m =>
  return ((), { m with host := Host.putChar m.host code })

/-- Prints a number. -/
def putNumber (v : UInt32) : Eval σ Unit := update fun m =>
  return ((), { m with host := Host.putNumber m.host v.toInt32 })

/-- Prints the string object at an address. -/
def putString (a : UInt32) : Eval σ Unit := update fun m =>
  return ((), { m with host := Host.putString m.host (← m.memory.readString a) })

/-- Asks the host to go back to its last saved state. -/
def restoreUndo : Eval σ Unit := attempt fun m =>
  let (answer, host) := Host.restoreUndo m.host
  (answer, { m with host := host })

end Eval

/-- What a statement comes to: control goes on with the next statement or at a label, or the routine
returns. -/
inductive Control where
  | next
  | goto (l : Label)
  | ret (value : UInt32)
  deriving DecidableEq, Repr

open Eval

variable {σ : Type} [Host σ]

/-! ## Expressions -/

section Trees

variable (invoke : UInt32 → List UInt32 → Eval σ UInt32)

mutual

/-- **The value of an expression**, its operands evaluated from left to right. -/
def Expr.eval : Expr → Eval σ UInt32
  | .const value => return value.toUInt32
  | .readLocal var => Eval.readLocal var.index
  | .load width address => do
    let a ← address.eval
    Eval.readMemory width a
  | .arith op left right => do
    let l ← left.eval
    let r ← right.eval
    Eval.arith op l r
  | .compare op left right => do
    let l ← left.eval
    let r ← right.eval
    return op.apply l r
  | .convert width signed value => do
    let v ← value.eval
    return width.convert signed v
  | .call address args => do
    let a ← address.eval
    let vs ← Expr.evalAll args
    invoke a vs
  | .callCounted address count => do
    let a ← address.eval
    let n ← count.eval
    let vs ← Eval.popArguments n
    invoke a vs
  | .pop => Eval.popValue
  | .glk args => do
    let vs ← Expr.evalAll args
    Eval.dispatch vs
  | .memorySize => Eval.memorySize

/-- The values of a list of expressions, from left to right. -/
def Expr.evalAll : List Expr → Eval σ (List UInt32)
  | [] => return []
  | e :: rest => do
    let v ← e.eval
    let vs ← Expr.evalAll rest
    return v :: vs

end

/-- What an expression makes of the values of its direct operands. -/
def Expr.combine (e : Expr) (vs : List UInt32) : Eval σ UInt32 :=
  match e with
  | .const value => nullary (return value.toUInt32) vs
  | .readLocal var => nullary (Eval.readLocal var.index) vs
  | .load width _ => unary (Eval.readMemory width) vs
  | .arith op _ _ => binary (Eval.arith op) vs
  | .compare op _ _ => binary (fun l r => return op.apply l r) vs
  | .convert width signed _ => unary (fun v => return width.convert signed v) vs
  | .call _ _ => headed invoke vs
  | .callCounted _ _ => binary (fun a n => Eval.popArguments n >>= invoke a) vs
  | .pop => nullary Eval.popValue vs
  | .glk _ => Eval.dispatch vs
  | .memorySize => nullary Eval.memorySize vs

/-- **The value of an expression is made of the values of its direct operands**, evaluated in
order. -/
theorem Expr.eval_eq (e : Expr) :
    e.eval invoke = (Expr.evalAll invoke e.children >>= e.combine invoke) := by
  cases e with
  | glk args =>
    rw [Expr.eval]
    refine bind_congr fun vs => ?_
    rw [Expr.combine]
  | _ => simp [Expr.eval, Expr.evalAll, Expr.combine, Expr.children]

theorem Expr.size_le_sizeAll {c : Expr} {es : List Expr} (h : c ∈ es) : c.size ≤ sizeAll es := by
  induction es with
  | nil => simp at h
  | cons e rest ih =>
    rw [sizeAll]
    rcases List.mem_cons.mp h with rfl | h
    · exact Nat.le_add_right _ _
    · exact Nat.le_trans (ih h) (Nat.le_add_left _ _)

/-- Induction on expressions by their direct operands. -/
theorem Expr.childInduction {P : Expr → Prop} (h : ∀ e, (∀ c ∈ e.children, P c) → P e) (e : Expr) :
    P e := by
  induction hn : e.size using Nat.strongRecOn generalizing e with
  | ind n ih =>
    refine h e fun c hc => ih c.size ?_ c rfl
    rw [← hn, e.size_eq]
    exact Nat.lt_succ_of_le (size_le_sizeAll hc)

/-! ## Statements -/

/-- **The meaning of a statement.** -/
def Stmt.exec : Stmt → Eval σ Control
  | .label _ => do
    Eval.countStep
    return .next
  | .eval value => do
    let _ ← value.eval invoke
    return .next
  | .writeLocal var value => do
    let v ← value.eval invoke
    Eval.writeLocal var.index v
    return .next
  | .store width address value => do
    let a ← address.eval invoke
    let v ← value.eval invoke
    Eval.writeMemory width a v
    return .next
  | .push value => do
    let v ← value.eval invoke
    Eval.pushValue v
    return .next
  | .copyStack count => do
    let n ← count.eval invoke
    Eval.copyStack n
    return .next
  | .jump l => return .goto l
  | .branch cond guarded => do
    let c ← cond.eval invoke
    if c = 0 then return .next else guarded.exec
  | .ret value => do
    let v ← value.eval invoke
    return .ret v
  | .quit => halt
  | .putChar value => do
    let code ← value.eval invoke
    Eval.putChar code
    return .next
  | .putNumber value => do
    let v ← value.eval invoke
    Eval.putNumber v
    return .next
  | .putString address => do
    let a ← address.eval invoke
    Eval.putString a
    return .next
  | .restoreUndo => do
    Eval.restoreUndo
    return .next

/-- The statements of a body from a label on; none if the body has no such label. -/
def Body.at (b : Body) (l : Label) : List Stmt := b.stmts.dropWhile (· ≠ .label l)

/-- **Runs statements of a body** up to a return. Running off the end returns 0. -/
def Body.run (b : Body) : (fuel : Nat) → List Stmt → Eval σ UInt32
  | 0, _ => timeout
  | _ + 1, [] => return 0
  | fuel + 1, s :: rest => do
    match ← s.exec invoke with
    | .next => b.run fuel rest
    | .goto l =>
      match b.at l with
      | [] => fail (.defect (.missingLabel l))
      | found => b.run fuel found
    | .ret value => return value

end Trees

/-! ## Calls -/

/-- Runs the body of the routine that was entered last, and leaves the routine whatever happens. -/
def leaving (address : UInt32) (body : Eval σ UInt32) : Eval σ UInt32 := fun m =>
  match body m with
  | none => none
  | some (.ok v, m) =>
    match m.leave with
    | (.ok (), m) => some (.ok v, m.record (.left address v))
    | (.error f, m) => some (.error (.fault f), m)
  | some (.error s, m) => some (.error s, m.leave.2)

/-- **The meaning of a call**: the routine is entered, its body is run, and it is left again. -/
def invoke : (fuel : Nat) → UInt32 → List UInt32 → Eval σ UInt32
  | 0, _, _ => timeout
  | fuel + 1, address, args => do
    let r ← attempt fun m => m.enter address args
    leaving address (r.body.run (invoke fuel) fuel r.body.stmts)

/-- **The call of a routine** by the meaning of its body. -/
def Machine.callTree (m : Machine σ) (fuel : Nat) (address : UInt32) (args : List UInt32) :
    Option (Except Fault UInt32 × Machine σ) :=
  (invoke fuel address args m).map fun p => (answer p.1, p.2)

end StoryVM
