import StoryVM.Proofs.Requests
import StoryVM.Proofs.Termination

/-! # Quitting

When a program quits, at any depth and in the middle of whatever its callers were doing, the run is
over (`quit_stops`): nothing more is executed, the frames that it has entered are left, the answer
is 0, and the machine stays halted from then on.

* `Run.Quits`: the next operation of the run is to quit.
* `Machine.Stopped`: what such a run leaves behind.
* `Request.Does.halted`: no request wakes a halted machine. -/

namespace StoryVM

variable {σ : Type}

/-! ## Halted machines -/

theorem Machine.halted_halt (m : Machine σ) : m.halt.halted = true := by
  rw [m.keeps_halt.halted, Bool.or_true]

theorem Machine.After.halted {op : Op} {m m' : Machine σ} (h : m.After op m')
    (hm : m.halted = true) : m'.halted = true := by
  by_cases hq : op = .quit
  · cases h with
    | change h => rw [h.keeps.halted, hm, Bool.true_or]
    | count l => cases hq
    | halt => exact m.halted_halt
  · rw [(h.keeps hq).halted, hm, Bool.true_or]

/-- **Runs do not wake a halted machine.** -/
theorem Machine.upheld_halted :
    Machine.Upheld fun m m' : Machine σ => m.halted = true → m'.halted = true where
  refl m := id
  trans h h' := h' ∘ h
  after h := h.halted
  enter m address args hm := by
    obtain ⟨hok, herr⟩ := m.enter_spec address args
    rcases henter : m.enter address args with ⟨f | r, m'⟩
    · exact (herr f m' henter).halted.trans (by rw [hm, Bool.true_or])
    · exact (hok r m' henter).halted.trans hm
  leave m hm := by
    obtain ⟨frames, stack, hleave⟩ := m.leave_changes
    rw [hleave]
    exact hm
  record m e := id

section Requests

variable [Host σ]

/-- **No request wakes a halted machine.** -/
theorem Request.Does.halted {m m' : Machine σ} {request : Request σ} (h : Request.Does m request m')
    (hm : m.halted = true) : m'.halted = true := by
  cases h with
  | call hcall => exact Machine.upheld_halted.call hcall hm
  | evaluate heval => exact Machine.upheld_halted.evaluate heval hm
  | routine address =>
    obtain ⟨routines, trace, hat⟩ := m.routineAt_changes address
    rw [hat]
    exact hm
  | memory hr h => exact hm
  | rest hr stack host => exact hm
  | halt => exact m.halted_halt

end Requests

/-! ## Runs that quit -/

/-- **The run quits**: that is its next operation. -/
def Run.Quits (r : Run σ) : Prop := r.current.program.ops[r.current.pc]? = some .quit

/-- **What a run leaves behind** that began on one machine and quit: the frames that were entered
have been left, and nothing else has happened since. -/
structure Machine.Stopped [Host σ] (m start : Machine σ) (r : Run σ) : Prop where
  leaves : r.machine.halt.LeavesTo m
  depth : m.depth = start.depth
  memory : m.memory = r.machine.memory
  steps : m.steps = r.machine.steps
  host : m.host = r.machine.host
  halted : m.halted = true
  later : ∀ fuel requests answers m', Machine.performAll fuel requests m = some (answers, m') →
    m'.halted = true

variable [Host σ] {isCall : Prop} {start : Machine σ} {r : Run σ}

theorem Run.Quits.step (h : r.Quits) : r.step = .finished (.ok 0) r.machine.halt :=
  Run.step_of_fetch h

/-- **Nothing follows** once a run has quit. -/
theorem Run.Quits.after (h : r.Quits) {p : Progress σ} {n : Nat} (hp : p.after n = .running r)
    (k : Nat) : p.after (n + 1 + k) = .finished (.ok 0) r.machine.halt := by
  rw [Progress.after_add, Progress.after_add, hp, Progress.after, Progress.after_zero, h.step,
    Progress.after_finished]

/-- A run that goes on after a number of steps has gone on until then. -/
theorem Progress.lasts_of_running {p : Progress σ} {n : Nat} (h : p.after n = .running r) :
    p.Lasts (n + 1) := by
  intro k hk
  cases hp : p.after k with
  | running r' => exact ⟨r', rfl⟩
  | finished result m =>
    have hn : n = k + (n - k) := by omega
    rw [hn, Progress.after_add, hp, Progress.after_finished] at h
    cases h

theorem Machine.EndsLevel.stopped (h : r.machine.halt.EndsLevel isCall start (.ok 0)) :
    (r.machine.halt.settle start.depth (.ok 0)).1 = .ok 0 ∧
      (r.machine.halt.settle start.depth (.ok 0)).2.Stopped start r := by
  have hhalted := r.machine.halted_halt
  obtain ⟨frames, stack, trace, hsettle⟩ := r.machine.halt.settle_changes start.depth (.ok 0)
  have hsame : r.machine.halt.memory = r.machine.memory ∧ r.machine.halt.steps = r.machine.steps ∧
      r.machine.halt.host = r.machine.host := by
    unfold Machine.halt
    split
    · exact ⟨rfl, rfl, rfl⟩
    · exact ⟨rfl, rfl, rfl⟩
  obtain ⟨hmemory, hsteps, hhost⟩ := hsame
  have hstays : (r.machine.halt.settle start.depth (.ok 0)).2.halted = true := by
    rw [hsettle]
    exact hhalted
  refine ⟨?_, h.leavable.settle (.ok 0), h.settle.1, ?_, ?_, ?_, hstays, ?_⟩
  · unfold Machine.settle
    dsimp only
    rw [if_pos hhalted]
  · rw [hsettle]
    exact hmemory
  · rw [hsettle]
    exact hsteps
  · rw [hsettle]
    exact hhost
  · intro fuel requests answers m' hall
    exact Machine.performAll_induction (fun hdoes hm => hdoes.halted hm) hall hstays

/-- **What a level run that quits comes to**, with any number of steps that it may take. -/
theorem Run.Level.quits {m : Machine σ} {a : Activation} (h : Run.Level ⟨m, a, []⟩ isCall start)
    {n : Nat} (hr : (Progress.running ⟨m, a, []⟩).after n = .running r) (hq : r.Quits) :
    ∃ m', (∀ fuel, m.runFrom fuel start.depth a = if n < fuel then some (.ok 0, m') else none) ∧
      m'.Stopped start r := by
  have hend : (Progress.running ⟨m, a, []⟩).after (n + 1) = .finished (.ok 0) r.machine.halt :=
    hq.after hr 0
  have hlevel : (Progress.running ⟨m, a, []⟩).Level isCall start := h
  have hends := hlevel.after (n + 1)
  rw [hend] at hends
  obtain ⟨hzero, hstopped⟩ := Machine.EndsLevel.stopped hends
  refine ⟨_, fun fuel => ?_, hstopped⟩
  rw [Machine.runFrom, (Progress.lasts_of_running hr).finish hend]
  by_cases hfuel : n < fuel
  · rw [if_pos hfuel, if_pos (Nat.succ_le_of_lt hfuel), ← hzero]
    rfl
  · rw [if_neg hfuel, if_neg (by omega)]
    rfl

/-- **Quitting stops everything.** When a run of a call or of an evaluation comes to quit, on a
machine that was not halted before, then nothing more is executed in it: it is finished one step
later. If it may take that many steps, the answer is 0, and the frames that were entered have been
left; neither memory nor the host nor the number of blocks entered has changed since, and the machine
is halted and stays so, whatever is requested of it. -/
theorem quit_stops {m : Machine σ} (hm : m.halted = false) :
    (∀ address args routine entered, m.enter address args = (.ok routine, entered) →
      ∀ n r, (Progress.running ⟨entered, .ofRoutine routine address, []⟩).after n = .running r →
      r.Quits →
      (∀ k, (Progress.running ⟨entered, .ofRoutine routine address, []⟩).after (n + 1 + k) =
        .finished (.ok 0) r.machine.halt) ∧
      ∃ m', (∀ fuel, m.call fuel address args = if n < fuel then some (.ok 0, m') else none) ∧
        m'.Stopped m r) ∧
    ∀ e n r, (Progress.running ⟨m, { program := Program.ofExpr e }, []⟩).after n = .running r →
      r.Quits →
      (∀ k, (Progress.running ⟨m, { program := Program.ofExpr e }, []⟩).after (n + 1 + k) =
        .finished (.ok 0) r.machine.halt) ∧
      ∃ m', (∀ fuel, m.evaluate fuel e = if n < fuel then some (.ok 0, m') else none) ∧
        m'.Stopped m r := by
  refine ⟨fun address args routine entered henter n r hr hq => ⟨hq.after hr, ?_⟩,
    fun e n r hr hq => ⟨hq.after hr, (m.level_of_expr e).quits hr hq⟩⟩
  obtain ⟨m', hrun, hstopped⟩ := (Machine.level_of_enter henter).quits hr hq
  refine ⟨m', fun fuel => ?_, hstopped⟩
  have hcall : m.call fuel address args =
      entered.runFrom fuel m.depth (.ofRoutine routine address) := by
    unfold Machine.call
    rw [hm, henter]
    rfl
  rw [hcall, hrun]

/-- A routine that calls another one, which quits. -/
def quitting : Machine Silent :=
  { memory := { bytes := #[0xC1, 0, 0, 0x81, 0x60, 0x81, 9, 0x31, 0, 0xC1, 0, 0, 0x81, 0x20] }
    stack := Stack.empty 16, ramStart := 0, host := {} }

theorem quit_stops_quitting :
    quitting.halted = false ∧
      ∃ m', (∀ fuel, quitting.call fuel 0 [] = if 4 < fuel then some (.ok 0, m') else none) ∧
        m'.depth = 0 ∧ m'.steps = 2 ∧ m'.halted = true := by
  have hrun : (match quitting.enter 0 [] with
      | (.ok routine, entered) =>
        match (Progress.running ⟨entered, .ofRoutine routine 0, []⟩).after 4 with
        | .running r => decide (r.current.program.ops[r.current.pc]? = some .quit ∧
            r.suspended.length = 1 ∧ r.machine.steps = 2)
        | .finished _ _ => false
      | (.error _, _) => false) = true := by
    decide +kernel
  rcases henter : quitting.enter 0 [] with ⟨f | routine, entered⟩
  · rw [henter] at hrun
    cases hrun
  · rw [henter] at hrun
    dsimp only at hrun
    cases hr : (Progress.running ⟨entered, .ofRoutine routine 0, []⟩).after 4 with
    | finished result m =>
      rw [hr] at hrun
      cases hrun
    | running r =>
      rw [hr] at hrun
      obtain ⟨hq, -, hsteps⟩ := of_decide_eq_true hrun
      obtain ⟨-, m', hcall, hstopped⟩ :=
        (quit_stops (m := quitting) rfl).1 0 [] routine entered henter 4 r hr hq
      exact ⟨rfl, m', hcall, hstopped.depth, hstopped.steps.trans hsteps, hstopped.halted⟩

end StoryVM
