import StoryVM.Machine

/-! # Executing one operation

An activation is a program in the middle of its run: its position and its operand stack. One
operation takes it a step further, or asks for a call, or ends it. -/

namespace StoryVM

/-- **An activation** of a program. -/
structure Activation where
  program : Program
  /-- The position of the next operation. -/
  pc : Nat := 0
  /-- The operands, top first. -/
  operands : List UInt32 := []
  /-- The address of the routine whose frame the activation owns, if it owns one. -/
  routine : Option UInt32 := none
  deriving DecidableEq, Repr

namespace Activation

/-- The start of a routine. -/
def ofRoutine (r : Routine) (address : UInt32) : Activation :=
  { program := r.program, routine := some address }

/-- Pushes an operand. -/
def push (a : Activation) (v : UInt32) : Activation := { a with operands := v :: a.operands }

/-- Pops an operand. -/
def pop (a : Activation) : Except Fault (UInt32 × Activation) :=
  match a.operands with
  | v :: rest => .ok (v, { a with operands := rest })
  | [] => .error (.defect .operandMissing)

/-- Pops a number of operands, the last pushed last in the list. -/
def popMany (a : Activation) (count : Nat) : Except Fault (List UInt32 × Activation) :=
  if count ≤ a.operands.length then
    .ok ((a.operands.take count).reverse, { a with operands := a.operands.drop count })
  else .error (.defect .operandsMissing)

/-- Continues at the block of a label. -/
def jump (a : Activation) (l : Label) : Except Fault Activation :=
  (a.program.start l).map fun position => { a with pc := position }

end Activation

/-- **What an operation comes to.** -/
inductive Transfer (σ : Type) where
  /-- The activation goes on. -/
  | next (a : Activation) (m : Machine σ)
  /-- A routine is to be called; the activation waits for its result. -/
  | call (address : UInt32) (args : List UInt32) (a : Activation) (m : Machine σ)
  /-- The activation ends with a result. -/
  | ret (value : UInt32) (m : Machine σ)
  /-- The machine has stopped. -/
  | halt (m : Machine σ)
  /-- Something went wrong. -/
  | fault (f : Fault) (m : Machine σ)

namespace Transfer

variable {σ : Type}

/-- The outcome of an operation that changes the activation only. -/
def ofActivation (m : Machine σ) : Except Fault Activation → Transfer σ
  | .ok a => next a m
  | .error f => fault f m

/-- The outcome of an operation that changes the machine unless it fails. -/
def ofUpdate (m : Machine σ) : Except Fault (Activation × Machine σ) → Transfer σ
  | .ok (a, m) => next a m
  | .error f => fault f m

/-- The outcome of an operation that may change the machine even if it fails. -/
def ofAttempt (a : Activation) : Except Fault Unit × Machine σ → Transfer σ
  | (.ok (), m) => next a m
  | (.error f, m) => fault f m

end Transfer

variable {σ : Type} [Host σ]

/-- Hands a request to the host. Its arguments are the selector and the number of further arguments,
which are on the value stack. -/
def Machine.dispatch (m : Machine σ) (args : List UInt32) : Except Fault UInt32 × Machine σ :=
  match args with
  | [selector, count] =>
    match m.stack.popArguments count with
    | .error f => (.error f, m)
    | .ok (glkArgs, stack) =>
      let (answer, host) := Host.glk m.host selector glkArgs
      (answer, { m with stack := stack, host := host })
  | _ => (.error (.defect (.dispatchArity args.length)), m)

/-- **Executes an operation** of an activation whose position is already past it. -/
def Op.exec (op : Op) (a : Activation) (m : Machine σ) : Transfer σ :=
  match op with
  | const v => .next (a.push v) m
  | readLocal index => .ofActivation m do return a.push (← (← m.currentFrame).read index)
  | load w => .ofActivation m do
    let (address, a) ← a.pop
    return a.push (← m.memory.read w address)
  | arith op => .ofActivation m do
    let (r, a) ← a.pop
    let (l, a) ← a.pop
    match op.apply? l r with
    | some v => return a.push v
    | none => .error .divisionByZero
  | compare op => .ofActivation m do
    let (r, a) ← a.pop
    let (l, a) ← a.pop
    return a.push (op.apply l r)
  | convert w signed => .ofActivation m do
    let (v, a) ← a.pop
    return a.push (w.convert signed v)
  | call count =>
    match (do
      let (args, a) ← a.popMany count
      let (address, a) ← a.pop
      return (address, args, a)) with
    | .ok (address, args, a) => .call address args a m
    | .error f => .fault f m
  | callCounted =>
    match (do
      let (count, a) ← a.pop
      let (address, a) ← a.pop
      let (args, stack) ← m.stack.popArguments count
      return (address, args, a, stack)) with
    | .ok (address, args, a, stack) => .call address args a { m with stack := stack }
    | .error f => .fault f m
  | pop => .ofUpdate m do
    let (v, stack) ← m.stack.pop .dword
    return (a.push v, { m with stack := stack })
  | glk count =>
    match a.popMany count with
    | .error f => .fault f m
    | .ok (args, a) =>
      match m.dispatch args with
      | (.ok v, m) => .next (a.push v) m
      | (.error f, m) => .fault f m
  | memorySize => .next (a.push (UInt32.ofNat m.memory.size)) m
  | enter _ => .ofAttempt a m.countStep
  | discard => .ofActivation m do return (← a.pop).2
  | writeLocal index => .ofUpdate m do
    let (v, a) ← a.pop
    return (a, m.setCurrentFrame (← (← m.currentFrame).write index v))
  | store w => .ofUpdate m do
    let (v, a) ← a.pop
    let (address, a) ← a.pop
    return (a, { m with memory := ← m.memory.write w address v })
  | push => .ofUpdate m do
    let (v, a) ← a.pop
    return (a, { m with stack := ← m.stack.push .dword v })
  | copyStack => .ofUpdate m do
    let (count, a) ← a.pop
    return (a, { m with stack := ← m.stack.copyDwords count })
  | jump l => .ofActivation m (a.jump l)
  | jumpIf l => .ofActivation m do
    let (cond, a) ← a.pop
    if cond = 0 then return a else a.jump l
  | skipUnless target => .ofActivation m do
    let (cond, a) ← a.pop
    return if cond = 0 then { a with pc := target } else a
  | ret =>
    match a.pop with
    | .ok (v, _) => .ret v m
    | .error f => .fault f m
  | quit => .halt m.halt
  | putChar => .ofUpdate m do
    let (code, a) ← a.pop
    return (a, { m with host := Host.putChar m.host code })
  | putNumber => .ofUpdate m do
    let (v, a) ← a.pop
    return (a, { m with host := Host.putNumber m.host v.toInt32 })
  | putString => .ofUpdate m do
    let (address, a) ← a.pop
    return (a, { m with host := Host.putString m.host (← m.memory.readString address) })
  | restoreUndo =>
    let (answer, host) := Host.restoreUndo m.host
    .ofAttempt a (answer, { m with host := host })

/-- Arithmetic with its operands on top, the right one last. -/
theorem Op.exec_arith_push (op : ArithOp) (a : Activation) (m : Machine σ) (l r : UInt32) :
    (Op.arith op).exec ((a.push l).push r) m =
      match op.apply? l r with
      | some v => .next (a.push v) m
      | none => .fault .divisionByZero m := by
  have h : (Op.arith op).exec ((a.push l).push r) m = .ofActivation m
      (match op.apply? l r with
        | some v => .ok (a.push v)
        | none => .error .divisionByZero) := rfl
  rw [h]
  cases op.apply? l r <;> rfl

end StoryVM
