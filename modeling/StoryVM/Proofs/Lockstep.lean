import StoryVM.Proofs.Requests

/-! # Machines in lockstep

Two machines that are alike do alike, whatever they are asked for: they execute the same operations,
enter and leave the same routines and come to the same results. What it is to be alike is left open
here. One machine may have forgotten the routines it has read, or be halted, or have more room than
the other. A comparison says what is compared and how, and brings the few facts that this rests on
(`Lockstep`); all that machines do follows from them.

* `Agrees`, `AttemptsAgree`: two outcomes are the same up to what is related, or the first one is a
  fault that is excused, after which nothing is compared any more. `Beside`: the same value with
  related states.
* `Stack.Likeness`, `Lockstep`: a comparison of value stacks, and one of machines.
* `Lockstep.exec`, `Lockstep.enter`, `Lockstep.leave`: operations, and entering and leaving
  routines. `Lockstep.settle`: what runs settle to.
* `Lockstep.step`, `Lockstep.Progresses.after`, `Lockstep.finish`: steps, runs, and how they end.
* `Lockstep.perform`: requests that run no program. -/

namespace StoryVM

/-! ## Limits -/

/-- **The faults that limits raise**: calls nested too deeply, too many blocks, or a full stack. -/
def Fault.isLimit : Fault → Bool
  | callDepthExceeded _ | stepLimitExceeded _ | stackOverflow _ _ _ => true
  | _ => false

/-- **Limits that allow as much as others**, or more. No step limit allows the most. -/
structure Limits.Allows (l' l : Limits) : Prop where
  depth : l.maxDepth ≤ l'.maxDepth
  steps : ∀ limit', l'.maxSteps = some limit' → ∃ limit, l.maxSteps = some limit ∧ limit ≤ limit'

/-! ## Outcomes -/

section Outcomes

variable {α α' β β' : Type}

/-- **Outcomes agree**: they are related values, or the same fault, or the first is a fault that is
excused. -/
inductive Agrees (Excused : Fault → Prop) (R : α → α' → Prop) :
    Except Fault α → Except Fault α' → Prop
  | ok {a : α} {a' : α'} (h : R a a') : Agrees Excused R (.ok a) (.ok a')
  | error (f : Fault) : Agrees Excused R (.error f) (.error f)
  | excused {f : Fault} (hf : Excused f) (x' : Except Fault α') : Agrees Excused R (.error f) x'

namespace Agrees

variable {Excused : Fault → Prop} {R : α → α' → Prop} {S : β → β' → Prop} {x : Except Fault α}
  {x' : Except Fault α'}

theorem refl {R : α → α → Prop} (h : ∀ a, R a a) (x : Except Fault α) : Agrees Excused R x x := by
  cases x with
  | error f => exact .error f
  | ok a => exact .ok (h a)

theorem bind {f : α → Except Fault β} {f' : α' → Except Fault β'} (hx : Agrees Excused R x x')
    (hf : ∀ a a', R a a' → Agrees Excused S (f a) (f' a')) :
    Agrees Excused S (x >>= f) (x' >>= f') := by
  cases hx with
  | ok h => exact hf _ _ h
  | error f => exact .error f
  | excused hf => exact .excused hf _

/-- A part that both have in common. -/
theorem common (x : Except Fault α) {f : α → Except Fault β} {f' : α → Except Fault β'}
    (hf : ∀ a, Agrees Excused S (f a) (f' a)) : Agrees Excused S (x >>= f) (x >>= f') := by
  cases x with
  | error f => exact .error f
  | ok a => exact hf a

end Agrees

/-- The same value, with related states beside it. -/
inductive Beside (R : β → β' → Prop) : α × β → α × β' → Prop
  | same (a : α) {s : β} {s' : β'} (h : R s s') : Beside R (a, s) (a, s')

/-- **Attempts agree**: they have the same outcome and leave related states behind, or the first one
comes to a fault that is excused. -/
inductive AttemptsAgree (Excused : Fault → Prop) (R : β → β → Prop) :
    Except Fault α × β → Except Fault α × β → Prop
  | same (x : Except Fault α) {s s' : β} (h : R s s') : AttemptsAgree Excused R (x, s) (x, s')
  | excused {f : Fault} (hf : Excused f) (s : β) (q' : Except Fault α × β) :
    AttemptsAgree Excused R (.error f, s) q'

/-- **Attempts agree that come to a fault that is not excused**, or to none. -/
theorem AttemptsAgree.resolve {Excused : Fault → Prop} {R : β → β → Prop}
    {q q' : Except Fault α × β} (h : AttemptsAgree Excused R q q')
    (hq : ∀ f, q.1 = .error f → ¬ Excused f) : q'.1 = q.1 ∧ R q.2 q'.2 := by
  cases h with
  | same x h => exact ⟨rfl, h⟩
  | excused hf => exact absurd hf (hq _ rfl)

end Outcomes

/-! ## Value stacks -/

/-- **A comparison of value stacks**: stacks that are alike stay so, by all that is done to them, as
long as it does not come to a fault that is excused. -/
structure Stack.Likeness (Excused : Fault → Prop) where
  Like : Stack → Stack → Prop
  pointer : ∀ {s s'}, Like s s' → s'.pointer = s.pointer
  pop : ∀ {s s'}, Like s s' → ∀ w, Agrees Excused (Beside Like) (s.pop w) (s'.pop w)
  push : ∀ {s s'}, Like s s' → ∀ w v, Agrees Excused Like (s.push w v) (s'.push w v)
  copyDwords : ∀ {s s'}, Like s s' → ∀ n, Agrees Excused Like (s.copyDwords n) (s'.copyDwords n)
  restore : ∀ {s s'}, Like s s' → ∀ p, Agrees Excused Like (s.restore p) (s'.restore p)

namespace Stack.Likeness

variable {Excused : Fault → Prop}

/-- Every stack is alike to itself only. -/
def equal (Excused : Fault → Prop) : Likeness Excused where
  Like s s' := s' = s
  pointer h := congrArg Stack.pointer h
  pop := by
    rintro s _ rfl w
    exact .refl (fun p => .same p.1 rfl) _
  push := by
    rintro s _ rfl w v
    exact Agrees.refl (R := fun s s' => s' = s) (fun _ => rfl) _
  copyDwords := by
    rintro s _ rfl n
    exact Agrees.refl (R := fun s s' => s' = s) (fun _ => rfl) _
  restore := by
    rintro s _ rfl p
    exact Agrees.refl (R := fun s s' => s' = s) (fun _ => rfl) _

variable (k : Likeness Excused) {s s' : Stack}

theorem popDwords (h : k.Like s s') (n : Nat) :
    Agrees Excused (Beside k.Like) (s.popDwords n) (s'.popDwords n) := by
  induction n generalizing s s' with
  | zero => exact .ok (.same [] h)
  | succ n ih =>
    exact (k.pop h .dword).bind fun
      | _, _, .same v hs => (ih hs).bind fun
        | _, _, .same vs hs' => .ok (.same (v :: vs) hs')

theorem popArguments (h : k.Like s s') (count : UInt32) :
    Agrees Excused (Beside k.Like) (s.popArguments count) (s'.popArguments count) := by
  unfold Stack.popArguments
  rw [k.pointer h]
  split
  · exact k.popDwords h _
  · exact .error _

theorem pushDwords (h : k.Like s s') (vs : List UInt32) :
    AttemptsAgree Excused k.Like (s.pushDwords vs) (s'.pushDwords vs) := by
  induction vs generalizing s s' with
  | nil => exact .same _ h
  | cons v rest ih =>
    have hpush := k.push h .dword v
    unfold Stack.pushDwords
    generalize s.push .dword v = x, s'.push .dword v = x' at hpush
    cases hpush with
    | ok hs => exact ih hs
    | error f => exact .same _ h
    | excused hf => exact .excused hf _ _

end Stack.Likeness

/-! ## Machines -/

/-- **What machines that are alike have in common.** -/
structure Machine.Shares {σ : Type} (m m' : Machine σ) : Prop where
  memory : m'.memory = m.memory
  frames : m'.frames = m.frames
  host : m'.host = m.host
  steps : m'.steps = m.steps

/-- **A comparison of machines.** Machines that are alike share memory, frames and host, and their
value stacks and limits can be compared. Changing them in the same way keeps them alike, and so does
getting a routine if both machines are `Ready` for that. -/
structure Lockstep (σ : Type) where
  Like : Machine σ → Machine σ → Prop
  /-- The faults of the first machine with which the comparison ends. -/
  Excused : Fault → Prop
  values : Stack.Likeness Excused
  /-- The machine can be relied on for the routine at an address. -/
  Ready : Machine σ → UInt32 → Prop
  shares : ∀ {m m'}, Like m m' → m.Shares m'
  stack : ∀ {m m'}, Like m m' → values.Like m.stack m'.stack
  /-- The limits are the same, or a limit that trips is excused and the second machine allows as
  much as the first. -/
  limits : ∀ {m m'}, Like m m' → m'.limits = m.limits ∨
    m'.limits.Allows m.limits ∧ ∀ f, f.isLimit = true → Excused f
  update : ∀ {m m'}, Like m m' → ∀ {s s'}, values.Like s s' → ∀ memory frames host,
    Like { m with memory := memory, stack := s, frames := frames, host := host }
      { m' with memory := memory, stack := s', frames := frames, host := host }
  count : ∀ {m m'}, Like m m' →
    Like { m with steps := m.steps + 1 } { m' with steps := m'.steps + 1 }
  record : ∀ {m m'}, Like m m' → ∀ e, Like (m.record e) (m'.record e)
  halt : ∀ {m m'}, Like m m' → Like m.halt m'.halt
  routineAt : ∀ {m m'}, Like m m' → ∀ {address}, Ready m address → Ready m' address →
    AttemptsAgree Excused Like (m.routineAt address) (m'.routineAt address)

namespace Lockstep

variable {σ : Type} (k : Lockstep σ) {m m' : Machine σ}

theorem change (hm : k.Like m m') {s s' : Stack} (hs : k.values.Like s s') {memory memory' : Memory}
    (hmemory : memory' = memory) {frames frames' : Array Frame} (hframes : frames' = frames)
    {host host' : σ} (hhost : host' = host) :
    k.Like { m with memory := memory, stack := s, frames := frames, host := host }
      { m' with memory := memory', stack := s', frames := frames', host := host' } := by
  subst hmemory hframes hhost
  exact k.update hm hs _ _ _

theorem withMemory (hm : k.Like m m') (memory : Memory) :
    k.Like { m with memory := memory } { m' with memory := memory } :=
  k.change hm (k.stack hm) rfl (k.shares hm).frames (k.shares hm).host

theorem withStack (hm : k.Like m m') {s s' : Stack} (hs : k.values.Like s s') :
    k.Like { m with stack := s } { m' with stack := s' } :=
  k.change hm hs (k.shares hm).memory (k.shares hm).frames (k.shares hm).host

theorem withFrames (hm : k.Like m m') (frames : Array Frame) :
    k.Like { m with frames := frames } { m' with frames := frames } :=
  k.change hm (k.stack hm) (k.shares hm).memory rfl (k.shares hm).host

theorem withHost (hm : k.Like m m') (host : σ) :
    k.Like { m with host := host } { m' with host := host } :=
  k.change hm (k.stack hm) (k.shares hm).memory (k.shares hm).frames rfl

theorem depth (hm : k.Like m m') : m'.depth = m.depth := congrArg Array.size (k.shares hm).frames

theorem currentFrame (hm : k.Like m m') : m'.currentFrame = m.currentFrame := by
  unfold Machine.currentFrame
  rw [(k.shares hm).frames]

/-- Outcomes agree that are values and machines. -/
abbrev Updates {α : Type} (x x' : Except Fault (α × Machine σ)) : Prop :=
  Agrees k.Excused (Beside k.Like) x x'

/-- Attempts on machines agree. -/
abbrev Attempts {α : Type} (q q' : Except Fault α × Machine σ) : Prop :=
  AttemptsAgree k.Excused k.Like q q'

/-! ## Operations -/

/-- **Transfers agree**: they are the same on machines that are alike, or the first one is a fault
that is excused. -/
inductive Transfers : Transfer σ → Transfer σ → Prop
  | next (a : Activation) {m m' : Machine σ} (hm : k.Like m m') : Transfers (.next a m) (.next a m')
  | call (address : UInt32) (args : List UInt32) (a : Activation) {m m' : Machine σ}
    (hm : k.Like m m') : Transfers (.call address args a m) (.call address args a m')
  | ret (v : UInt32) {m m' : Machine σ} (hm : k.Like m m') : Transfers (.ret v m) (.ret v m')
  | halt {m m' : Machine σ} (hm : k.Like m m') : Transfers (.halt m) (.halt m')
  | fault (f : Fault) {m m' : Machine σ} (hm : k.Like m m') : Transfers (.fault f m) (.fault f m')
  | excused {f : Fault} (hf : k.Excused f) (m : Machine σ) (t' : Transfer σ) :
    Transfers (.fault f m) t'

variable {k}

theorem Transfers.ofActivation (hm : k.Like m m') (x : Except Fault Activation) :
    k.Transfers (.ofActivation m x) (.ofActivation m' x) := by
  cases x with
  | error f => exact .fault f hm
  | ok a => exact .next a hm

theorem Transfers.ofUpdate (hm : k.Like m m') {x x' : Except Fault (Activation × Machine σ)}
    (h : k.Updates x x') : k.Transfers (.ofUpdate m x) (.ofUpdate m' x') := by
  cases h with
  | ok h =>
    obtain ⟨a, hm₁⟩ := h
    exact .next a hm₁
  | error f => exact .fault f hm
  | excused hf => exact .excused hf _ _

theorem Transfers.ofAttempt (a : Activation) {q q' : Except Fault Unit × Machine σ}
    (h : k.Attempts q q') : k.Transfers (.ofAttempt a q) (.ofAttempt a q') := by
  cases h with
  | same x hm =>
    cases x with
    | error f => exact .fault f hm
    | ok u => exact .next a hm
  | excused hf => exact .excused hf _ _

variable (k)

theorem countStep (hm : k.Like m m') : k.Attempts m.countStep m'.countStep := by
  have hcount := k.count hm
  have hsteps : m'.steps + 1 = m.steps + 1 := by rw [(k.shares hm).steps]
  unfold Machine.countStep
  dsimp only
  rcases k.limits hm with heq | ⟨hallows, hexcused⟩
  · have hmax : m'.limits.maxSteps = m.limits.maxSteps := congrArg Limits.maxSteps heq
    rw [hmax]
    cases m.limits.maxSteps with
    | none => exact .same _ hcount
    | some limit =>
      by_cases hlt : limit < m.steps + 1
      · have hlt' : limit < m'.steps + 1 := hsteps ▸ hlt
        simp only [if_pos hlt, if_pos hlt']
        exact .same _ (k.record hcount _)
      · have hlt' : ¬ limit < m'.steps + 1 := hsteps ▸ hlt
        simp only [if_neg hlt, if_neg hlt']
        exact .same _ hcount
  · cases hlimit : m.limits.maxSteps with
    | none =>
      cases hlimit' : m'.limits.maxSteps with
      | none => exact .same _ hcount
      | some limit' =>
        obtain ⟨limit, hsome, -⟩ := hallows.steps limit' hlimit'
        rw [hlimit] at hsome
        cases hsome
    | some limit =>
      by_cases hlt : limit < m.steps + 1
      · simp only [if_pos hlt]
        exact .excused (hexcused _ rfl) _ _
      · simp only [if_neg hlt]
        cases hlimit' : m'.limits.maxSteps with
        | none => exact .same _ hcount
        | some limit' =>
          obtain ⟨limit₁, hsome, hle⟩ := hallows.steps limit' hlimit'
          obtain rfl : limit = limit₁ := Option.some.inj (hlimit.symm.trans hsome)
          have hlt' : ¬ limit' < m'.steps + 1 := by omega
          simp only [if_neg hlt']
          exact .same _ hcount

theorem dispatch [Host σ] (hm : k.Like m m') (args : List UInt32) :
    k.Attempts (m.dispatch args) (m'.dispatch args) := by
  unfold Machine.dispatch
  split
  · next selector count =>
    have hpop := k.values.popArguments (k.stack hm) count
    rw [(k.shares hm).host]
    generalize m.stack.popArguments count = x, m'.stack.popArguments count = x' at hpop
    cases hpop with
    | ok h =>
      obtain ⟨vs, hs⟩ := h
      exact .same _ (k.withHost (k.withStack hm hs) _)
    | error f => exact .same _ hm
    | excused hf => exact .excused hf _ _
  · exact .same _ hm

/-- **Operations** do alike. -/
theorem exec [Host σ] (hm : k.Like m m') (op : Op) (a : Activation) :
    k.Transfers (op.exec a m) (op.exec a m') := by
  have hmemory := (k.shares hm).memory
  have hframe := k.currentFrame hm
  have hhost := (k.shares hm).host
  have hstack := k.stack hm
  cases op with
  | const v => exact .next _ hm
  | readLocal index =>
    unfold Op.exec
    rw [hframe]
    exact .ofActivation hm _
  | load w =>
    unfold Op.exec
    rw [hmemory]
    exact .ofActivation hm _
  | arith op => exact .ofActivation hm _
  | compare op => exact .ofActivation hm _
  | convert w signed => exact .ofActivation hm _
  | call count =>
    unfold Op.exec
    dsimp only
    split
    · exact .call _ _ _ hm
    · exact .fault _ hm
  | callCounted =>
    unfold Op.exec
    cases a.pop with
    | error f => exact .fault f hm
    | ok p =>
      dsimp only [Bind.bind, Except.bind]
      cases p.2.pop with
      | error f => exact .fault f hm
      | ok q =>
        have hpop := k.values.popArguments hstack p.1
        dsimp only
        generalize m.stack.popArguments p.1 = x, m'.stack.popArguments p.1 = x' at hpop
        cases hpop with
        | ok h =>
          obtain ⟨args, hs⟩ := h
          exact .call _ _ _ (k.withStack hm hs)
        | error f => exact .fault f hm
        | excused hf => exact .excused hf _ _
  | pop =>
    exact .ofUpdate hm ((k.values.pop hstack .dword).bind fun
      | _, _, .same v hs => .ok (.same (a.push v) (k.withStack hm hs)))
  | glk count =>
    unfold Op.exec
    dsimp only
    split
    · exact .fault _ hm
    · next args b hb =>
      have hdispatch := k.dispatch hm args
      generalize m.dispatch args = q, m'.dispatch args = q' at hdispatch
      cases hdispatch with
      | same x h =>
        cases x with
        | error f => exact .fault f h
        | ok v => exact .next _ h
      | excused hf => exact .excused hf _ _
  | memorySize =>
    unfold Op.exec
    rw [hmemory]
    exact .next _ hm
  | enter l => exact .ofAttempt a (k.countStep hm)
  | discard => exact .ofActivation hm _
  | writeLocal index =>
    refine .ofUpdate hm (.common a.pop fun p => ?_)
    rw [hframe]
    refine .common m.currentFrame fun f => .common _ fun f' => .ok (.same _ ?_)
    unfold Machine.setCurrentFrame
    rw [(k.shares hm).frames]
    exact k.withFrames hm _
  | store w =>
    refine .ofUpdate hm (.common a.pop fun p => .common p.2.pop fun q => ?_)
    rw [hmemory]
    exact .common _ fun memory => .ok (.same _ (k.withMemory hm memory))
  | push =>
    exact .ofUpdate hm (.common a.pop fun p => (k.values.push hstack .dword p.1).bind
      fun s s' hs => .ok (.same _ (k.withStack hm hs)))
  | copyStack =>
    exact .ofUpdate hm (.common a.pop fun p => (k.values.copyDwords hstack p.1).bind
      fun s s' hs => .ok (.same _ (k.withStack hm hs)))
  | jump l => exact .ofActivation hm _
  | jumpIf l => exact .ofActivation hm _
  | skipUnless target => exact .ofActivation hm _
  | ret =>
    unfold Op.exec
    dsimp only
    split
    · exact .ret _ hm
    · exact .fault _ hm
  | quit => exact .halt (k.halt hm)
  | putChar =>
    refine .ofUpdate hm (.common a.pop fun p => .ok (.same _ ?_))
    rw [hhost]
    exact k.withHost hm _
  | putNumber =>
    refine .ofUpdate hm (.common a.pop fun p => .ok (.same _ ?_))
    rw [hhost]
    exact k.withHost hm _
  | putString =>
    refine .ofUpdate hm (.common a.pop fun ⟨address, b⟩ => ?_)
    have htext : m'.memory.readString address = m.memory.readString address := by rw [hmemory]
    dsimp only
    rw [htext, hhost]
    exact .common _ fun text => .ok (.same _ (k.withHost hm _))
  | restoreUndo =>
    unfold Op.exec
    dsimp only
    rw [hhost]
    exact .ofAttempt a (.same _ (k.withHost hm _))

/-! ## Entering and leaving -/

theorem pushFrame (hm : k.Like m m') (address : UInt32) (argCount : Nat) (f : Frame) :
    k.Like (m.pushFrame address argCount f) (m'.pushFrame address argCount f) := by
  unfold Machine.pushFrame
  rw [(k.shares hm).frames]
  exact k.withFrames (k.record hm _) _

/-- **Entering a routine** does alike. -/
theorem enter (hm : k.Like m m') (address : UInt32) (args : List UInt32)
    (hr : m.depth < m.limits.maxDepth → k.Ready m address)
    (hr' : m'.depth < m'.limits.maxDepth → k.Ready m' address) :
    k.Attempts (m.enter address args) (m'.enter address args) := by
  have hdepth := k.depth hm
  unfold Machine.enter
  by_cases hfull : m.limits.maxDepth ≤ m.depth
  · rw [if_pos hfull]
    rcases k.limits hm with heq | ⟨-, hexcused⟩
    · rw [heq, hdepth, if_pos hfull]
      exact .same _ (k.record hm _)
    · exact .excused (hexcused _ rfl) _ _
  have hroom' : ¬ m'.limits.maxDepth ≤ m'.depth := by
    rw [hdepth]
    rcases k.limits hm with heq | ⟨hallows, -⟩
    · rwa [heq]
    · exact fun hle => hfull (Nat.le_trans hallows.depth hle)
  rw [if_neg hfull, if_neg hroom']
  have hroutine := k.routineAt hm (hr (Nat.not_le.mp hfull)) (hr' (Nat.not_le.mp hroom'))
  generalize m.routineAt address = q, m'.routineAt address = q' at hroutine
  cases hroutine with
  | excused hf => exact .excused hf _ _
  | @same x m₁ m₁' hm₁ =>
    cases x with
    | error f => exact .same _ hm₁
    | ok r =>
      have hs := k.stack hm₁
      dsimp only
      rw [k.values.pointer hs]
      split
      · exact .same _ (k.pushFrame hm₁ _ _ _)
      · have hpushed := k.values.pushDwords hs (args.reverse ++ [UInt32.ofNat args.length])
        have hcapacity := m₁.stack.capacity_pushDwords (args.reverse ++ [UInt32.ofNat args.length])
        generalize m₁.stack.pushDwords (args.reverse ++ [UInt32.ofNat args.length]) = t,
          m₁'.stack.pushDwords (args.reverse ++ [UInt32.ofNat args.length]) = t' at *
        cases hpushed with
        | excused hf s =>
          -- Putting the pointer back does not fail, so the fault is still the one of the push.
          have hle : m₁.stack.pointer ≤ s.capacity := by
            rw [show s.capacity = m₁.stack.capacity from hcapacity]
            exact m₁.stack.pointer_le
          obtain ⟨restored, hrestore, -⟩ := Stack.restore_of_le hle
          dsimp only
          rw [hrestore]
          exact .excused hf _ _
        | @same x s s' hs' =>
          cases x with
          | ok u => exact .same _ (k.pushFrame (k.withStack hm₁ hs') _ _ _)
          | error f =>
            have hrestored := k.values.restore hs' m₁.stack.pointer
            dsimp only
            generalize s.restore m₁.stack.pointer = y, s'.restore m₁.stack.pointer = y' at *
            cases hrestored with
            | ok hs => exact .same _ (k.withStack hm₁ hs)
            | error f => exact .same _ (k.withStack hm₁ hs')
            | excused hf => exact .excused hf _ _

/-- **Leaving a routine** does alike. -/
theorem leave (hm : k.Like m m') : k.Attempts m.leave m'.leave := by
  unfold Machine.leave
  rw [(k.shares hm).frames]
  cases m.frames.back? with
  | none => exact .same _ hm
  | some f =>
    have hpopped := k.withFrames hm m.frames.pop
    have hrestored := k.values.restore (k.stack hm) f.base
    dsimp only
    generalize m.stack.restore f.base = x, m'.stack.restore f.base = x' at hrestored
    cases hrestored with
    | ok hs => exact .same _ (k.withStack hpopped hs)
    | error f => exact .same _ hpopped
    | excused hf => exact .excused hf _ _

/-- **Leaving routines**, as long as they can be left if anything is excused. -/
theorem unwind (hm : k.Like m m') (base : Nat) {n : Nat}
    (h : ∀ f, k.Excused f → m.LeavableFrom base ∧ n ≤ m.depth - base) :
    k.Like (m.unwind n) (m'.unwind n) := by
  induction n generalizing m m' with
  | zero => exact hm
  | succ n ih =>
    have hleave := k.leave hm
    unfold Machine.unwind
    generalize hq : m.leave = q, m'.leave = q' at hleave
    cases hleave with
    | excused hf =>
      obtain ⟨hleavable, hn⟩ := h _ hf
      obtain ⟨m₁, f, hok, -⟩ := hleavable.leave (by omega)
      rw [hok] at hq
      cases hq
    | @same x m₁ m₁' hm₁ =>
      cases x with
      | error f => exact k.record hm₁ _
      | ok u =>
        refine ih hm₁ fun f hf => ?_
        obtain ⟨hleavable, hn⟩ := h f hf
        obtain ⟨m₂, f, hok, hframes, -, hm₂⟩ := hleavable.leave (by omega)
        obtain rfl : m₁ = m₂ := (Prod.mk.inj (hq.symm.trans hok)).2
        have hsize : m.depth = m₁.depth + 1 := by simp [Machine.depth, hframes]
        exact ⟨hm₂, by omega⟩

/-- **What runs settle to.** -/
theorem settle (hm : k.Like m m') (hhalted : m'.halted = m.halted) (base : Nat)
    (h : ∀ f, k.Excused f → m.LeavableFrom base) (result : Except Fault UInt32) :
    (m'.settle base result).1 = (m.settle base result).1 ∧
      k.Like (m.settle base result).2 (m'.settle base result).2 := by
  have hunwind : k.Like (m.unwind (m.depth - base)) (m'.unwind (m.depth - base)) :=
    k.unwind hm base fun f hf => ⟨h f hf, Nat.le_refl _⟩
  unfold Machine.settle
  rw [k.depth hm, hhalted]
  cases result with
  | error f => exact ⟨rfl, hunwind⟩
  | ok v =>
    dsimp only
    split
    · exact ⟨rfl, hunwind⟩
    · exact ⟨rfl, hm⟩

end Lockstep

/-! ## Runs -/

/-- **A call**: the routine at an address is to be called, with arguments, on a machine. -/
structure Call (σ : Type) where
  machine : Machine σ
  address : UInt32
  args : List UInt32

/-- The call that the next operation of a run makes, if it makes one. -/
def Run.call? {σ : Type} [Host σ] (r : Run σ) : Option (Call σ) :=
  match r.current.program.ops[r.current.pc]? with
  | none => none
  | some op =>
    match op.exec { r.current with pc := r.current.pc + 1 } r.machine with
    | .call address args _ m => some ⟨m, address, args⟩
    | _ => none

namespace Lockstep

variable {σ : Type} (k : Lockstep σ) {m m' : Machine σ}

/-- The machine can be relied on for the routine that is called, if it comes to look for it. -/
def Admits (c : Call σ) : Prop :=
  c.machine.depth < c.machine.limits.maxDepth → k.Ready c.machine c.address

/-- **Progress agrees**: runs go on with the same activations on machines that are alike, or have
come to the same result there, or the first one has come to a fault that is excused. -/
inductive Progresses : Progress σ → Progress σ → Prop
  | running (a : Activation) (suspended : List Activation) {m m' : Machine σ} (hm : k.Like m m') :
    Progresses (.running ⟨m, a, suspended⟩) (.running ⟨m', a, suspended⟩)
  | finished (result : Except Fault UInt32) {m m' : Machine σ} (hm : k.Like m m') :
    Progresses (.finished result m) (.finished result m')
  | excused {f : Fault} (hf : k.Excused f) (m : Machine σ) (p' : Progress σ) :
    Progresses (.finished (.error f) m) p'

theorem resume (hm : k.Like m m') (suspended : List Activation) (v : UInt32) :
    k.Progresses (Run.resume m suspended v) (Run.resume m' suspended v) := by
  cases suspended with
  | nil => exact .finished _ hm
  | cons caller rest => exact .running _ _ hm

theorem returnValue (hm : k.Like m m') (a : Activation) (suspended : List Activation)
    (m₀ m₀' : Machine σ) (v : UInt32) :
    k.Progresses (Run.returnValue ⟨m₀, a, suspended⟩ v m)
      (Run.returnValue ⟨m₀', a, suspended⟩ v m') := by
  unfold Run.returnValue
  dsimp only
  cases a.routine with
  | none => exact k.resume hm suspended v
  | some address =>
    have hleave := k.leave hm
    dsimp only
    generalize m.leave = q, m'.leave = q' at hleave
    cases hleave with
    | excused hf => exact .excused hf _ _
    | @same x m₁ m₁' hm₁ =>
      cases x with
      | error f => exact .finished _ hm₁
      | ok u => exact k.resume (k.record hm₁ _) suspended v

theorem callRoutine (hm : k.Like m m') {address : UInt32} {args : List UInt32}
    (hc : k.Admits ⟨m, address, args⟩) (hc' : k.Admits ⟨m', address, args⟩) (a caller : Activation)
    (suspended : List Activation) (m₀ m₀' : Machine σ) :
    k.Progresses (Run.callRoutine ⟨m₀, a, suspended⟩ address args caller m)
      (Run.callRoutine ⟨m₀', a, suspended⟩ address args caller m') := by
  have henter := k.enter hm address args hc hc'
  unfold Run.callRoutine
  generalize m.enter address args = q, m'.enter address args = q' at henter
  cases henter with
  | excused hf => exact .excused hf _ _
  | @same x m₁ m₁' hm₁ =>
    cases x with
    | error f => exact .finished _ hm₁
    | ok routine => exact .running _ _ hm₁

section Runs

variable [Host σ]

/-- **Steps** do alike, if both machines can be relied on for the routine that is called. -/
theorem step (hm : k.Like m m') (a : Activation) (suspended : List Activation)
    (hc : ∀ c, Run.call? ⟨m, a, suspended⟩ = some c → k.Admits c)
    (hc' : ∀ c, Run.call? ⟨m', a, suspended⟩ = some c → k.Admits c) :
    k.Progresses (Run.step ⟨m, a, suspended⟩) (Run.step ⟨m', a, suspended⟩) := by
  unfold Run.call? at hc hc'
  unfold Run.step
  dsimp only at hc hc' ⊢
  cases hop : a.program.ops[a.pc]? with
  | none => exact k.returnValue hm a suspended m m' 0
  | some op =>
    have hexec := k.exec hm op { a with pc := a.pc + 1 }
    rw [hop] at hc hc'
    dsimp only at hc hc' ⊢
    -- From here on only the two transfers matter.
    generalize op.exec { a with pc := a.pc + 1 } m = t,
      op.exec { a with pc := a.pc + 1 } m' = t' at *
    cases hexec with
    | next a hm => exact .running _ _ hm
    | call address args a' hm =>
      exact k.callRoutine hm (hc _ rfl) (hc' _ rfl) a a' suspended _ _
    | ret v hm => exact k.returnValue hm a suspended _ _ v
    | halt hm => exact .finished _ hm
    | fault f hm => exact .finished _ hm
    | excused hf => exact .excused hf _ _

variable {k}

/-- **Runs** do alike, if all machines can be relied on for all routines. -/
theorem Progresses.after (hready : ∀ m address, k.Ready m address) {p p' : Progress σ}
    (h : k.Progresses p p') (n : Nat) : k.Progresses (p.after n) (p'.after n) := by
  induction n generalizing p p' with
  | zero => exact h
  | succ n ih =>
    cases h with
    | running a suspended hm =>
      exact ih (k.step hm a suspended (fun c _ _ => hready _ _) fun c _ _ => hready _ _)
    | finished result hm => exact .finished result hm
    | excused hf m p' => exact .excused hf m _

/-- **How runs end**: if the first one goes on, so does the second, and if it comes to something
that is not excused, the second one comes to the same. -/
theorem finish (hready : ∀ m address, k.Ready m address) (hm : k.Like m m') (a : Activation)
    (fuel : Nat) :
    (Run.finish fuel ⟨m, a, []⟩ = none → Run.finish fuel ⟨m', a, []⟩ = none) ∧
      ∀ result m₁, Run.finish fuel ⟨m, a, []⟩ = some (result, m₁) →
        (∀ f, result = .error f → ¬ k.Excused f) →
        ∃ m₁', Run.finish fuel ⟨m', a, []⟩ = some (result, m₁') ∧ k.Like m₁ m₁' := by
  have hafter := (Progresses.running a [] hm).after hready fuel
  rw [Run.finish_eq, Run.finish_eq]
  generalize (Progress.running ⟨m, a, []⟩).after fuel = p,
    (Progress.running ⟨m', a, []⟩).after fuel = p' at hafter
  cases hafter with
  | running a suspended hm => exact ⟨fun _ => rfl, nofun⟩
  | finished result hm =>
    refine ⟨nofun, fun result' m₁ h _ => ?_⟩
    cases h
    exact ⟨_, rfl, hm⟩
  | excused hf m p' =>
    refine ⟨nofun, fun result' m₁ h hresult => ?_⟩
    cases h
    exact absurd hf (hresult _ rfl)

end Runs

/-! ## Requests -/

theorem commit (hm : k.Like m m') {x x' : Except Fault (Answer × Machine σ)}
    (h : k.Updates x x') : k.Attempts (m.commit x) (m'.commit x') := by
  cases h with
  | ok h =>
    obtain ⟨answer, hm₁⟩ := h
    exact .same _ hm₁
  | error f => exact .same _ hm
  | excused hf => exact .excused hf _ _

/-- **Requests that run no program** do alike. -/
theorem perform [Host σ] (hm : k.Like m m') {request : Request σ} (hrequest : request.isRun = false)
    (hready : ∀ address, request = .routine address → k.Ready m address ∧ k.Ready m' address)
    (fuel : Nat) :
    ∃ q q', m.perform fuel request = some q ∧ m'.perform fuel request = some q' ∧
      k.Attempts q q' := by
  have hmemory := (k.shares hm).memory
  have hstack := k.stack hm
  cases request with
  | call address args => cases hrequest
  | evaluate e => cases hrequest
  | routine address =>
    obtain ⟨hr, hr'⟩ := hready address rfl
    have hroutine := k.routineAt hm hr hr'
    refine ⟨_, _, rfl, rfl, ?_⟩
    generalize m.routineAt address = q, m'.routineAt address = q' at hroutine
    cases hroutine with
    | same x hm₁ => exact .same _ hm₁
    | excused hf => exact .excused hf _ _
  | write w address v =>
    have hwrite : m'.memory.write w address v = m.memory.write w address v := by rw [hmemory]
    refine ⟨_, _, rfl, rfl, k.commit hm ?_⟩
    rw [hwrite]
    exact .common _ fun memory => .ok (.same _ (k.withMemory hm memory))
  | expand n =>
    have hexpand : m'.memory.expand n = m.memory.expand n := by rw [hmemory]
    refine ⟨_, _, rfl, rfl, k.commit hm ?_⟩
    rw [hexpand]
    exact .common _ fun memory => .ok (.same _ (k.withMemory hm memory))
  | protect region =>
    have hprotect : m'.memory.protect region = m.memory.protect region := by rw [hmemory]
    refine ⟨_, _, rfl, rfl, .same _ ?_⟩
    rw [hprotect]
    exact k.withMemory hm _
  | push w v =>
    exact ⟨_, _, rfl, rfl, k.commit hm ((k.values.push hstack w v).bind
      fun s s' hs => .ok (.same _ (k.withStack hm hs)))⟩
  | pop w =>
    exact ⟨_, _, rfl, rfl, k.commit hm ((k.values.pop hstack w).bind
      fun | _, _, .same v hs => .ok (.same (Answer.value v) (k.withStack hm hs)))⟩
  | copyStack n =>
    exact ⟨_, _, rfl, rfl, k.commit hm ((k.values.copyDwords hstack n).bind
      fun s s' hs => .ok (.same _ (k.withStack hm hs)))⟩
  | restore p =>
    exact ⟨_, _, rfl, rfl, k.commit hm ((k.values.restore hstack p).bind
      fun s s' hs => .ok (.same _ (k.withStack hm hs)))⟩
  | host host => exact ⟨_, _, rfl, rfl, .same _ (k.withHost hm host)⟩
  | halt => exact ⟨_, _, rfl, rfl, .same _ (k.halt hm)⟩

end Lockstep

end StoryVM
