import StoryVM.Event
import StoryVM.Frame
import StoryVM.Host
import StoryVM.Limits
import StoryVM.Memory.StringObject
import StoryVM.Routine.Decode
import StoryVM.Stack

/-! # The machine

Everything that a running program touches: memory, the value stack, the frames of the routines that
are running, the routines read so far, the host, the limits and what has been used of them, and the
events reported. Operations that may fail give back the machine as well, because a failure can leave
traces: an event, a host that has changed. -/

namespace StoryVM

/-- **The machine**, for a host with states `σ`. -/
structure Machine (σ : Type) where
  memory : Memory
  stack : Stack
  /-- The start of writable memory. -/
  ramStart : UInt32
  /-- The routines read so far, by address. -/
  routines : Std.TreeMap UInt32 Routine := ∅
  /-- The frames of the running routines, innermost last. -/
  frames : Array Frame := #[]
  host : σ
  limits : Limits := {}
  /-- The number of blocks entered so far. -/
  steps : Nat := 0
  halted : Bool := false
  /-- The events so far. -/
  trace : Array Event := #[]

namespace Machine

variable {σ : Type}

/-- The number of running routines. -/
def depth (m : Machine σ) : Nat := m.frames.size

/-- Reports an event. -/
def record (m : Machine σ) (e : Event) : Machine σ := { m with trace := m.trace.push e }

/-- Stops the machine. -/
def halt (m : Machine σ) : Machine σ :=
  { (if m.halted then m else m.record (.halted m.steps)) with halted := true }

/-- The innermost frame. -/
def currentFrame (m : Machine σ) : Except Fault Frame :=
  match m.frames.back? with
  | some f => .ok f
  | none => .error (.defect .noActiveFrame)

/-- Replaces the innermost frame. -/
def setCurrentFrame (m : Machine σ) (f : Frame) : Machine σ :=
  { m with frames := m.frames.pop.push f }

/-- Counts one block against the limit. -/
def countStep (m : Machine σ) : Except Fault Unit × Machine σ :=
  let m := { m with steps := m.steps + 1 }
  match m.limits.maxSteps with
  | none => (.ok (), m)
  | some limit =>
    if limit < m.steps then (.error (.stepLimitExceeded limit), m.record (.stepLimit limit))
    else (.ok (), m)

/-! ## Routines -/

/-- Whether the routine at an address has been read. -/
def isCached (m : Machine σ) (address : UInt32) : Bool := m.routines.contains address

/-- **The routine at an address**, read from memory the first time only. -/
def routineAt (m : Machine σ) (address : UInt32) : Except Fault Routine × Machine σ :=
  match m.routines.get? address with
  | some r => (.ok r, m)
  | none =>
    match Routine.decode m.memory address m.ramStart with
    | .error fault => (.error fault, m)
    | .ok r =>
      let m := m.record (.decoded r.convention address r.body.stmts.length r.body.labelCount)
      (.ok r, { m with routines := m.routines.insert address r })

/-! ## Calls -/

/-- Adds a frame for the routine at an address. -/
def pushFrame (m : Machine σ) (address : UInt32) (argCount : Nat) (f : Frame) : Machine σ :=
  { m.record (.entered address argCount) with frames := m.frames.push f }

/-- **Enters the routine at an address**: makes its frame and passes the arguments as its convention
wants. If they do not fit on the stack, the stack pointer is put back. -/
def enter (m : Machine σ) (address : UInt32) (args : List UInt32) :
    Except Fault Routine × Machine σ :=
  if m.limits.maxDepth ≤ m.depth then
    (.error (.callDepthExceeded m.limits.maxDepth),
      m.record (.depthLimit m.limits.maxDepth address))
  else
    match m.routineAt address with
    | (.error fault, m) => (.error fault, m)
    | (.ok r, m) =>
      let base := m.stack.pointer
      let frame := Frame.make r.body.locals base
      match r.convention with
      | .localArguments => (.ok r, m.pushFrame address args.length (frame.passArguments args))
      | .stackArguments =>
        match m.stack.pushDwords (args.reverse ++ [UInt32.ofNat args.length]) with
        | (.ok (), stack) => (.ok r, { m with stack := stack }.pushFrame address args.length frame)
        | (.error fault, stack) =>
          match stack.restore base with
          | .ok stack => (.error fault, { m with stack := stack })
          | .error fault => (.error fault, { m with stack := stack })

/-- **Leaves the innermost routine**: drops its frame and all it left on the value stack. -/
def leave (m : Machine σ) : Except Fault Unit × Machine σ :=
  match m.frames.back? with
  | none => (.error (.defect .noFrameToLeave), m)
  | some f =>
    let m := { m with frames := m.frames.pop }
    match m.stack.restore f.base with
    | .ok stack => (.ok (), { m with stack := stack })
    | .error fault => (.error fault, m)

/-- Leaves a number of routines, innermost first. -/
def unwind (m : Machine σ) : Nat → Machine σ
  | 0 => m
  | n + 1 =>
    match m.leave with
    | (.ok (), m) => m.unwind n
    | (.error fault, m) => m.record (.unwindFailed fault)

/-! ## Summary -/

/-- The state of the machine in one line. -/
def summary (m : Machine σ) : String :=
  Text.record "Machine"
    [("memory_size", toString m.memory.size),
     ("stack_pointer", toString m.stack.pointer),
     ("ram_start", toString m.ramStart.toNat),
     ("functions", toString m.routines.size),
     ("call_depth", toString m.depth),
     ("config", Text.record "MachineConfig"
       [("max_call_depth", toString m.limits.maxDepth),
        ("max_steps", m.limits.maxSteps.elim "None" fun n => Text.applied "Some" (toString n))]),
     ("steps", toString m.steps),
     ("halted", toString m.halted)]

end Machine

end StoryVM
