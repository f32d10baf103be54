import StoryVM.Machine.Exec

/-! # Running a program

A run is a stack of activations: the one that executes and those that wait for a result. A call
suspends the current activation in the middle of its expression, so guest recursion only makes the
stack longer, and the call-depth limit is its only bound.

* `Run.step` takes a run one operation further.
* `Machine.call` and `Machine.evaluate` run to the end. They are given a number of operations that
  the run may take, and have no answer if it takes more. Whatever happens, the frames they entered
  are left again. -/

namespace StoryVM

/-- **A run.** -/
structure Run (σ : Type) where
  machine : Machine σ
  current : Activation
  /-- The activations that wait for a result, innermost first. -/
  suspended : List Activation := []

/-- What a step of a run leads to. -/
inductive Progress (σ : Type) where
  | running (r : Run σ)
  | finished (result : Except Fault UInt32) (m : Machine σ)

namespace Run

variable {σ : Type}

/-- Hands a value to the activation that waits for it, or ends the run. -/
def resume (m : Machine σ) (suspended : List Activation) (value : UInt32) : Progress σ :=
  match suspended with
  | caller :: rest => .running ⟨m, caller.push value, rest⟩
  | [] => .finished (.ok value) m

/-- Ends the current activation with a value. If it owns a frame, its routine is left. -/
def returnValue (r : Run σ) (value : UInt32) (m : Machine σ) : Progress σ :=
  match r.current.routine with
  | none => resume m r.suspended value
  | some address =>
    match m.leave with
    | (.error f, m) => .finished (.error f) m
    | (.ok (), m) => resume (m.record (.left address value)) r.suspended value

/-- Starts the routine at an address; the activation `caller` waits for its result. -/
def callRoutine (r : Run σ) (address : UInt32) (args : List UInt32) (caller : Activation)
    (m : Machine σ) : Progress σ :=
  match m.enter address args with
  | (.error f, m) => .finished (.error f) m
  | (.ok routine, m) =>
    .running ⟨m, .ofRoutine routine address, caller :: r.suspended⟩

variable [Host σ]

/-- **One step**: the next operation of the current activation. Past its last operation, a program
returns 0. -/
def step (r : Run σ) : Progress σ :=
  match r.current.program.ops[r.current.pc]? with
  | none => r.returnValue 0 r.machine
  | some op =>
    match op.exec { r.current with pc := r.current.pc + 1 } r.machine with
    | .next a m => .running { r with machine := m, current := a }
    | .call address args a m => r.callRoutine address args a m
    | .ret value m => r.returnValue value m
    | .halt m => .finished (.ok 0) m
    | .fault f m => .finished (.error f) m

/-- **Runs to the end** in at most `fuel` steps. -/
def finish : (fuel : Nat) → Run σ → Option (Except Fault UInt32 × Machine σ)
  | 0, _ => none
  | fuel + 1, r =>
    match r.step with
    | .running r => finish fuel r
    | .finished result m => some (result, m)

end Run

namespace Machine

variable {σ : Type}

/-- Settles a run that began at a call depth: after a fault or a halt the frames entered since are
left, and a halted machine answers 0. -/
def settle (base : Nat) (result : Except Fault UInt32) (m : Machine σ) :
    Except Fault UInt32 × Machine σ :=
  match result with
  | .error f => (.error f, m.unwind (m.depth - base))
  | .ok v => if m.halted then (.ok 0, m.unwind (m.depth - base)) else (.ok v, m)

variable [Host σ]

/-- Runs an activation to the end and settles it. -/
def runFrom (m : Machine σ) (fuel base : Nat) (a : Activation) :
    Option (Except Fault UInt32 × Machine σ) :=
  (Run.finish fuel ⟨m, a, []⟩).map fun p => settle base p.1 p.2

/-- **Calls the routine at an address** and gives back its result. A halted machine does nothing and
answers 0. -/
def call (m : Machine σ) (fuel : Nat) (address : UInt32) (args : List UInt32) :
    Option (Except Fault UInt32 × Machine σ) :=
  if m.halted then some (.ok 0, m)
  else
    match m.enter address args with
    | (.error f, m) => some (.error f, m)
    | (.ok routine, entered) => entered.runFrom fuel m.depth (.ofRoutine routine address)

/-- **Evaluates an expression** in the innermost frame. -/
def evaluate (m : Machine σ) (fuel : Nat) (e : Expr) : Option (Except Fault UInt32 × Machine σ) :=
  m.runFrom fuel m.depth { program := Program.ofExpr e }

end Machine

end StoryVM
