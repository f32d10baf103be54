import StoryVM.Proofs.Depth

/-! # Requests

A machine is used from outside by requests: to call a routine, to evaluate an expression, to read a
routine, and to change its memory, its value stack or its host. Each gives back an answer and the
machine, and requests may follow one another in any order (`Machine.performAll`).

* `Machine.Upheld`: a relation between machines that everything a run does respects. It then holds
  between the machine before and after a whole call or evaluation (`Upheld.call`, `Upheld.evaluate`).
  Leaving routines needs less of it (`Machine.UpheldByLeaving`).
* `Request.Does`, `Machine.perform_does`: what a request does to the machine. -/

namespace StoryVM

variable {σ : Type}

/-! ## What runs respect -/

/-- **A relation that leaving routines respects**: it holds between a machine and what comes of it by
leaving a routine and by reporting an event. -/
structure Machine.UpheldByLeaving (R : Machine σ → Machine σ → Prop) : Prop where
  refl : ∀ m, R m m
  trans : ∀ {m₁ m₂ m₃}, R m₁ m₂ → R m₂ m₃ → R m₁ m₃
  leave : ∀ m, R m m.leave.2
  record : ∀ m e, R m (m.record e)

/-- **A relation that runs respect**: it also holds between a machine and what comes of it by an
operation and by entering a routine. -/
structure Machine.Upheld (R : Machine σ → Machine σ → Prop) : Prop
    extends Machine.UpheldByLeaving R where
  after : ∀ {op m m'}, Machine.After m op m' → R m m'
  enter : ∀ m address args, R m (m.enter address args).2

theorem Run.machine_resume (m : Machine σ) (suspended : List Activation) (v : UInt32) :
    (Run.resume m suspended v).machine = m := by
  cases suspended <;> rfl

namespace Machine.UpheldByLeaving

variable {R : Machine σ → Machine σ → Prop}

theorem unwind (h : UpheldByLeaving R) (m : Machine σ) (n : Nat) : R m (m.unwind n) := by
  induction n generalizing m with
  | zero => exact h.refl m
  | succ n ih =>
    have hleave := h.leave m
    unfold Machine.unwind
    split
    · next m' hm' =>
      rw [hm'] at hleave
      exact h.trans hleave (ih m')
    · next f m' hm' =>
      rw [hm'] at hleave
      exact h.trans hleave (h.record m' _)

theorem settle (h : UpheldByLeaving R) (m : Machine σ) (base : Nat) (result : Except Fault UInt32) :
    R m (m.settle base result).2 := by
  unfold Machine.settle
  split
  · exact h.unwind m _
  · split
    · exact h.unwind m _
    · exact h.refl m

theorem returnValue (h : UpheldByLeaving R) (r : Run σ) (v : UInt32) (m : Machine σ) :
    R m (r.returnValue v m).machine := by
  have hleave := h.leave m
  unfold Run.returnValue
  split
  · rw [Run.machine_resume]
    exact h.refl m
  · split
    · next f m' hm' =>
      rw [hm'] at hleave
      exact hleave
    · next m' hm' =>
      rw [hm'] at hleave
      rw [Run.machine_resume]
      exact h.trans hleave (h.record m' _)

end Machine.UpheldByLeaving

namespace Machine.Upheld

variable {R : Machine σ → Machine σ → Prop}

theorem callRoutine (h : Upheld R) (r : Run σ) (address : UInt32) (args : List UInt32)
    (caller : Activation) (m : Machine σ) : R m (r.callRoutine address args caller m).machine := by
  have henter := h.enter m address args
  unfold Run.callRoutine
  split
  · next f m' hm' =>
    rw [hm'] at henter
    exact henter
  · next routine m' hm' =>
    rw [hm'] at henter
    exact henter

variable [Host σ]

/-- **Steps** respect the relation. -/
theorem step (h : Upheld R) (r : Run σ) : R r.machine r.step.machine := by
  cases hop : r.current.program.ops[r.current.pc]? with
  | none =>
    have hstep : r.step = r.returnValue 0 r.machine := by rw [Run.step, hop]
    rw [hstep]
    exact h.returnValue r 0 r.machine
  | some op =>
    have hdoes := op.exec_does { r.current with pc := r.current.pc + 1 } r.machine
    have hafter := h.after hdoes.machine
    rw [Run.step_of_fetch hop]
    generalize op.exec { r.current with pc := r.current.pc + 1 } r.machine = t at hafter ⊢
    cases t with
    | next a m => exact hafter
    | call address args a m => exact h.trans hafter (h.callRoutine r address args a m)
    | ret v m => exact h.trans hafter (h.returnValue r v m)
    | halt m => exact hafter
    | fault f m => exact hafter

/-- **Runs** respect the relation. -/
theorem run (h : Upheld R) (p : Progress σ) (n : Nat) : R p.machine (p.after n).machine := by
  induction n generalizing p with
  | zero => exact h.refl p.machine
  | succ n ih =>
    cases p with
    | running r => exact h.trans (h.step r) (ih r.step)
    | finished result m => exact h.refl m

theorem runFrom (h : Upheld R) {m m' : Machine σ} {fuel base : Nat} {a : Activation}
    {result : Except Fault UInt32} (hrun : m.runFrom fuel base a = some (result, m')) : R m m' := by
  obtain ⟨⟨ended, last⟩, hfinish, hsettle⟩ := Option.map_eq_some_iff.mp hrun
  have hlast := h.run (.running ⟨m, a, []⟩) fuel
  rw [Run.after_of_finish hfinish] at hlast
  have hsettled := h.settle last base ended
  rw [hsettle] at hsettled
  exact h.trans hlast hsettled

/-- **Calls** respect the relation. -/
theorem call (h : Upheld R) {m m' : Machine σ} {fuel : Nat} {address : UInt32} {args : List UInt32}
    {result : Except Fault UInt32} (hcall : m.call fuel address args = some (result, m')) :
    R m m' := by
  have henter := h.enter m address args
  unfold Machine.call at hcall
  split at hcall
  · cases hcall
    exact h.refl m
  · split at hcall
    · next f m₁ hm₁ =>
      cases hcall
      rw [hm₁] at henter
      exact henter
    · next routine m₁ hm₁ =>
      rw [hm₁] at henter
      exact h.trans henter (h.runFrom hcall)

/-- **Evaluations** respect the relation. -/
theorem evaluate (h : Upheld R) {m m' : Machine σ} {fuel : Nat} {e : Expr}
    {result : Except Fault UInt32} (heval : m.evaluate fuel e = some (result, m')) : R m m' :=
  h.runFrom heval

end Machine.Upheld

/-! ## Requests -/

/-- **What can be asked of a machine** from outside. -/
inductive Request (σ : Type) where
  /-- Call the routine at an address. -/
  | call (address : UInt32) (args : List UInt32)
  /-- Evaluate an expression. -/
  | evaluate (e : Expr)
  /-- Read the routine at an address. -/
  | routine (address : UInt32)
  /-- Write to memory. -/
  | write (w : Width) (address value : UInt32)
  /-- Grow memory. -/
  | expand (newSize : UInt32)
  /-- Protect a region of memory. -/
  | protect (region : Region)
  /-- Push a value on the value stack. -/
  | push (w : Width) (value : UInt32)
  /-- Pop a value from the value stack. -/
  | pop (w : Width)
  /-- Repeat the top dwords of the value stack. -/
  | copyStack (count : UInt32)
  /-- Set the pointer of the value stack. -/
  | restore (pointer : Nat)
  /-- Put the host in another state. -/
  | host (host : σ)
  /-- Stop the machine. -/
  | halt

/-- Whether a request runs a program. -/
def Request.isRun : Request σ → Bool
  | call _ _ | evaluate _ => true
  | _ => false

/-- **Answers to requests** that succeed. -/
inductive Answer where
  | done
  | value (v : UInt32)
  | routine (r : Routine)
  deriving DecidableEq, Repr

namespace Machine

/-- The answer and the machine of an attempt that leaves the machine alone if it fails. -/
def commit (m : Machine σ) :
    Except Fault (Answer × Machine σ) → Except Fault Answer × Machine σ
  | .ok (answer, m) => (.ok answer, m)
  | .error f => (.error f, m)

variable [Host σ]

/-- **Performs a request**, in at most `fuel` steps if it runs a program. -/
def perform (m : Machine σ) (fuel : Nat) :
    Request σ → Option (Except Fault Answer × Machine σ)
  | .call address args =>
    (m.call fuel address args).map fun p => (p.1.map .value, p.2)
  | .evaluate e => (m.evaluate fuel e).map fun p => (p.1.map .value, p.2)
  | .routine address => some ((m.routineAt address).map (·.map .routine) id)
  | .write w address v => some <| m.commit do
    return (.done, { m with memory := ← m.memory.write w address v })
  | .expand n => some <| m.commit do return (.done, { m with memory := ← m.memory.expand n })
  | .protect region => some (.ok .done, { m with memory := m.memory.protect region })
  | .push w v => some <| m.commit do return (.done, { m with stack := ← m.stack.push w v })
  | .pop w => some <| m.commit do
    let (v, stack) ← m.stack.pop w
    return (.value v, { m with stack := stack })
  | .copyStack n => some <| m.commit do return (.done, { m with stack := ← m.stack.copyDwords n })
  | .restore p => some <| m.commit do return (.done, { m with stack := ← m.stack.restore p })
  | .host host => some (.ok .done, { m with host := host })
  | .halt => some (.ok .done, m.halt)

/-- **Performs requests one after the other.** There are no answers if one of them does not end. -/
def performAll (fuel : Nat) :
    List (Request σ) → Machine σ → Option (List (Except Fault Answer) × Machine σ)
  | [], m => some ([], m)
  | request :: rest, m => do
    let (answer, m) ← m.perform fuel request
    let (answers, m) ← performAll fuel rest m
    return (answer :: answers, m)

end Machine

/-- **What a request can do to memory** without running a program. -/
inductive Memory.Change (m : Memory) : Memory → Prop
  | write {w : Width} {address v : UInt32} {m' : Memory} (h : m.write w address v = .ok m') :
    m.Change m'
  | expand {n : UInt32} {m' : Memory} (h : m.expand n = .ok m') : m.Change m'
  | protect (region : Region) : m.Change (m.protect region)

/-- **What a request does to the machine.** -/
inductive Request.Does [Host σ] (m : Machine σ) : Request σ → Machine σ → Prop
  | call {fuel : Nat} {address : UInt32} {args : List UInt32} {result : Except Fault UInt32}
    {m' : Machine σ} (h : m.call fuel address args = some (result, m')) :
    Does m (.call address args) m'
  | evaluate {fuel : Nat} {e : Expr} {result : Except Fault UInt32} {m' : Machine σ}
    (h : m.evaluate fuel e = some (result, m')) : Does m (.evaluate e) m'
  | routine (address : UInt32) : Does m (.routine address) (m.routineAt address).2
  | memory {request : Request σ} (hr : request.isRun = false) {memory : Memory}
    (h : m.memory.Change memory) : Does m request { m with memory := memory }
  | rest {request : Request σ} (hr : request.isRun = false) (stack : Stack) (host : σ) :
    Does m request { m with stack := stack, host := host }
  | halt : Does m .halt m.halt

variable [Host σ]

theorem Request.Does.commit {m : Machine σ} {request : Request σ} (hr : request.isRun = false)
    {x : Except Fault (Answer × Machine σ)} (h : Yields x fun p => Request.Does m request p.2) :
    Request.Does m request (m.commit x).2 := by
  cases x with
  | error f => exact .rest hr m.stack m.host
  | ok p => exact h p rfl

theorem Machine.perform_does {m m' : Machine σ} {fuel : Nat} {request : Request σ}
    {answer : Except Fault Answer} (h : m.perform fuel request = some (answer, m')) :
    Request.Does m request m' := by
  have hcommit : ∀ {x : Except Fault (Answer × Machine σ)}, some (m.commit x) = some (answer, m') →
      request.isRun = false → (Yields x fun p => Request.Does m request p.2) →
      Request.Does m request m' := by
    intro x hx hr hdoes
    have hm' := Request.Does.commit hr hdoes
    rwa [Option.some.inj hx] at hm'
  cases request with
  | call address args =>
    obtain ⟨⟨result, m₁⟩, hcall, he⟩ := Option.map_eq_some_iff.mp h
    cases he
    exact .call hcall
  | evaluate e =>
    obtain ⟨⟨result, m₁⟩, heval, he⟩ := Option.map_eq_some_iff.mp h
    cases he
    exact .evaluate heval
  | routine address =>
    cases h
    exact .routine address
  | write w address v =>
    refine hcommit h rfl (.bind (P := m.memory.Change) (fun _ hm => .write hm) fun memory hm => ?_)
    exact .pure (.memory rfl hm)
  | expand n =>
    refine hcommit h rfl (.bind (P := m.memory.Change) (fun _ hm => .expand hm) fun memory hm => ?_)
    exact .pure (.memory rfl hm)
  | protect region =>
    cases h
    exact .memory rfl (.protect region)
  | push w v => exact hcommit h rfl (.bind (.any _) fun s _ => .pure (.rest rfl s m.host))
  | pop w => exact hcommit h rfl (.bind (.any _) fun q _ => .pure (.rest rfl q.2 m.host))
  | copyStack n => exact hcommit h rfl (.bind (.any _) fun s _ => .pure (.rest rfl s m.host))
  | restore p => exact hcommit h rfl (.bind (.any _) fun s _ => .pure (.rest rfl s m.host))
  | host host =>
    cases h
    exact .rest rfl m.stack host
  | halt =>
    cases h
    exact .halt

/-- **What every request keeps**, all requests in sequence keep. -/
theorem Machine.performAll_induction {P : Machine σ → Prop} {fuel : Nat}
    (hstep : ∀ {m m' : Machine σ} {request : Request σ}, Request.Does m request m' → P m → P m')
    {requests : List (Request σ)} {m m' : Machine σ} {answers : List (Except Fault Answer)}
    (h : performAll fuel requests m = some (answers, m')) (hm : P m) : P m' := by
  induction requests generalizing m answers with
  | nil =>
    cases h
    exact hm
  | cons request rest ih =>
    obtain ⟨⟨answer, m₁⟩, hperform, hrest⟩ := Option.bind_eq_some_iff.mp h
    obtain ⟨⟨answers', m₂⟩, hall, he⟩ := Option.bind_eq_some_iff.mp hrest
    cases he
    exact ih hall (hstep (perform_does hperform) hm)

end StoryVM
