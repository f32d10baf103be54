import StoryVM.Proofs.Depth

/-! # Runs with a step limit end

With a limit on the number of blocks entered, every call and every evaluation comes to an end
(`call_terminates`). Blocks are counted at their starts only, so this rests on what the programs of
routines look like: they begin with the start of a block, jumps lead to the start of a block, and
skips lead forward (`Program.Paced`).

* `Routine.Sound.paced`, `Program.paced_ofExpr`: programs of routines and of expressions are like
  that.
* `Run.rank`: three numbers, of which the first that changes goes down with every step. They are the
  number of blocks that may still be entered, whether the next operation enters one, and the number
  of operations that the activations have before them.
* `Run.Paced.step`, `Run.Paced.ends`: each step takes the rank down, so the run ends. -/

namespace StoryVM

variable {σ : Type}

/-! ## Programs -/

namespace Program

/-- Whether a block starts at a position. -/
def entersAt (p : Program) (pc : Nat) : Bool :=
  match p.ops[pc]? with
  | some (.enter _) => true
  | _ => false

theorem entersAt_of_fetch {p : Program} {pc : Nat} {l : Label} (h : p.ops[pc]? = some (.enter l)) :
    p.entersAt pc = true := by
  rw [entersAt, h]

theorem not_entersAt {p : Program} {pc : Nat} (h : ∀ l, p.ops[pc]? ≠ some (.enter l)) :
    p.entersAt pc = false := by
  unfold entersAt
  split
  · next l hl => exact absurd hl (h l)
  · rfl

/-- **A paced program**: jumps lead to the start of a block, and skips lead forward. -/
structure Paced (p : Program) : Prop where
  starts : ∀ l pc, p.start l = .ok pc → p.entersAt pc = true
  skips : ∀ pc target : Nat, p.ops[pc]? = some (.skipUnless target) → pc < target

end Program

theorem Expr.exists_op_of_mem_flatten {op : Op} (e : Expr) (h : op ∈ e.flatten) :
    ∃ c : Expr, op = c.op := by
  induction e using Expr.childInduction with
  | h e ih =>
    rw [e.flatten_eq, List.mem_append, List.mem_flatMap, List.mem_singleton] at h
    rcases h with ⟨c, hc, hop⟩ | rfl
    · exact ih c hc hop
    · exact ⟨e, rfl⟩

theorem Expr.skipUnless_not_mem_flatten (e : Expr) (target : Nat) :
    Op.skipUnless target ∉ e.flatten := by
  intro h
  obtain ⟨c, hc⟩ := e.exists_op_of_mem_flatten h
  cases c <;> cases hc

/-- **A skip** leads right behind its statement. -/
theorem Stmt.skipUnless_of_mem_code {s : Stmt} {base target : Nat}
    (h : Op.skipUnless target ∈ s.code base) : target = base + (s.code base).length := by
  have hexpr := fun e : Expr => e.skipUnless_not_mem_flatten target
  cases s with
  | branch cond guarded =>
    cases guarded with
    | ret value =>
      simp [Stmt.code, Stmt.flatten, Except.toOption, hexpr] at h ⊢
      omega
    | _ => simp [Stmt.code, Stmt.flatten, Except.toOption, hexpr] at h
  | _ => simp [Stmt.code, Stmt.flatten, Except.toOption, hexpr] at h

namespace Program

theorem skips_codeOf {base pc target : Nat} {stmts : List Stmt}
    (h : (codeOf base stmts)[pc]? = some (.skipUnless target)) : base + pc < target := by
  induction stmts generalizing base pc with
  | nil => simp [codeOf] at h
  | cons s rest ih =>
    rw [codeOf] at h
    by_cases hpc : pc < (s.code base).length
    · rw [List.getElem?_append_left hpc] at h
      have htarget := Stmt.skipUnless_of_mem_code (List.mem_of_getElem? h)
      omega
    · rw [List.getElem?_append_right (Nat.not_lt.mp hpc)] at h
      have hlt := ih h
      omega

/-- The positions of labels hold the starts of blocks. -/
theorem enter_of_mem_startsOf {base pc : Nat} {stmts : List Stmt} (h : pc ∈ startsOf base stmts) :
    ∃ i l, pc = base + i ∧ (codeOf base stmts)[i]? = some (.enter l) := by
  induction stmts generalizing base with
  | nil => simp [startsOf] at h
  | cons s rest ih =>
    rw [startsOf, List.mem_append] at h
    rcases h with h | h
    · cases s with
      | label l =>
        obtain rfl : pc = base := by simpa [Stmt.label?] using h
        exact ⟨0, l, rfl, rfl⟩
      | _ => simp [Stmt.label?] at h
    · obtain ⟨i, l, hpc, hi⟩ := ih h
      refine ⟨(s.code base).length + i, l, by omega, ?_⟩
      rw [codeOf, List.getElem?_append_right (Nat.le_add_right _ _), Nat.add_sub_cancel_left]
      exact hi

/-- **The program of an expression is paced**: it has neither jumps nor skips. -/
theorem paced_ofExpr (e : Expr) : (ofExpr e).Paced where
  starts l pc h := by
    simp [start, ofExpr] at h
  skips pc target h := by
    have hmem := Array.mem_of_getElem? h
    simp [ofExpr, e.skipUnless_not_mem_flatten] at hmem

end Program

/-- **The program of a sound routine is paced.** -/
theorem Routine.Sound.paced {r : Routine} (h : r.Sound) : r.program.Paced where
  starts l pc hpc := by
    unfold Program.start at hpc
    split at hpc
    · next position hposition =>
      obtain rfl := Except.ok.inj hpc
      rw [← Array.getElem?_toList, h.starts] at hposition
      obtain ⟨i, k, hi, hfetch⟩ := Program.enter_of_mem_startsOf (List.mem_of_getElem? hposition)
      rw [Nat.zero_add] at hi
      refine Program.entersAt_of_fetch (l := k) ?_
      rw [← Array.getElem?_toList, h.ops, hi]
      exact hfetch
    · cases hpc
  skips pc target hpc := by
    rw [← Array.getElem?_toList, h.ops] at hpc
    have hlt := Program.skips_codeOf hpc
    omega

/-- **A sound routine begins with the start of a block.** -/
theorem Routine.Sound.entersAt_zero {r : Routine} (h : r.Sound) : r.program.entersAt 0 = true := by
  obtain ⟨rest, hrest⟩ := h.normal.head
  refine Program.entersAt_of_fetch (l := 0) ?_
  rw [← Array.getElem?_toList, h.ops, hrest]
  rfl

/-! ## The rank of a run -/

/-- The number of operations that an activation has before it, and one for its end. -/
def Activation.ahead (a : Activation) : Nat := a.program.ops.size - a.pc + 1

namespace Run

/-- Whether the next operation is the start of a block. -/
def enters (r : Run σ) : Bool := r.current.program.entersAt r.current.pc

/-- The number of operations that all activations have before them. -/
def ahead (r : Run σ) : Nat := (r.current :: r.suspended).foldr (fun a n => a.ahead + n) 0

/-- **The rank of a run** with a step limit. -/
def rank (limit : Nat) (r : Run σ) : Nat × Nat × Nat :=
  (limit + 1 - r.machine.steps, (!r.enters).toNat, r.ahead)

/-- **A step down**: the first number of the rank that differs is smaller. -/
def Below (limit : Nat) : Run σ → Run σ → Prop :=
  InvImage (Prod.Lex (· < ·) (Prod.Lex (· < ·) (· < ·))) (rank limit)

theorem below_wf (limit : Nat) : WellFounded (Below (σ := σ) limit) :=
  InvImage.wf _ (Prod.lex Nat.lt_wfRel (Prod.lex Nat.lt_wfRel Nat.lt_wfRel)).wf

variable {limit : Nat} {r r' : Run σ}

/-- Entering a block that the limit allows is a step down. -/
theorem below_of_count (h : r'.machine.steps = r.machine.steps + 1)
    (hl : r'.machine.steps ≤ limit) : Below limit r' r := by
  refine Prod.Lex.left _ _ ?_
  omega

/-- When no block is entered, it is a step down to come to the start of one, or to have fewer
operations ahead. -/
theorem below_of_ahead (h : r'.machine.steps = r.machine.steps) (hr : r.enters = false)
    (hd : r'.enters = true ∨ r'.ahead < r.ahead) : Below limit r' r := by
  unfold Below InvImage rank
  rw [h, hr]
  refine Prod.Lex.right _ ?_
  cases hr' : r'.enters with
  | true => exact Prod.Lex.left _ _ Nat.zero_lt_one
  | false => exact Prod.Lex.right _ (hd.resolve_left (by rw [hr']; exact Bool.false_ne_true))

end Run

/-! ## Paced runs -/

/-- **A paced machine**, which had entered `start` blocks before the run. -/
structure Machine.Paced (m : Machine σ) (limit start : Nat) : Prop where
  sound : m.Sound
  maxSteps : m.limits.maxSteps = some limit
  steps : m.steps ≤ max start limit

/-- **A paced run.** -/
structure Run.Paced (r : Run σ) (limit start : Nat) : Prop where
  machine : r.machine.Paced limit start
  programs : ∀ a ∈ r.current :: r.suspended, a.program.Paced

/-- **A paced step** from a run: it is a step down to a paced run, or the end, where at most one
block was entered too many. -/
def Progress.Paced (p : Progress σ) (limit start : Nat) (r : Run σ) : Prop :=
  match p with
  | running r' => r'.Paced limit start ∧ r'.Below limit r
  | finished _ m => m.steps ≤ max start limit + 1

variable {limit start : Nat} {r : Run σ}

theorem Machine.Paced.ends {m : Machine σ} (h : m.Paced limit start) :
    m.steps ≤ max start limit + 1 :=
  Nat.le_succ_of_le h.steps

theorem Machine.Paced.keeps {m m' : Machine σ} (h : m.Paced limit start) {halts : Bool}
    (hk : Machine.Keeps halts m m') (hl : m'.limits = m.limits) (hs : m'.steps = m.steps) :
    m'.Paced limit start :=
  ⟨hk.sound h.sound, hl ▸ h.maxSteps, hs ▸ h.steps⟩

theorem Machine.Paced.leave {m : Machine σ} (h : m.Paced limit start) :
    m.leave.2.Paced limit start ∧ m.leave.2.steps = m.steps := by
  obtain ⟨frames, stack, hchange⟩ := m.leave_changes
  rw [hchange]
  exact ⟨⟨h.sound, h.maxSteps, h.steps⟩, rfl⟩

theorem Activation.Moves.program {a b : Activation} {op : Op} (h : a.Moves op b) :
    b.program = a.program := by
  cases h <;> rfl

namespace Run.Paced

/-- Handing a value on, from an activation that enters no block. -/
theorem resume (h : r.Paced limit start) (hr : r.enters = false) {m : Machine σ}
    (hm : m.Paced limit start) (hsteps : m.steps = r.machine.steps) (v : UInt32) :
    (Run.resume m r.suspended v).Paced limit start r := by
  have hprograms := h.programs
  obtain ⟨machine, current, suspended⟩ := r
  cases suspended with
  | nil => exact hm.ends
  | cons caller rest =>
    refine ⟨⟨hm, fun a ha => ?_⟩, Run.below_of_ahead hsteps hr (Or.inr ?_)⟩
    · rcases List.mem_cons.mp ha with rfl | ha
      · exact hprograms caller (by simp)
      · exact hprograms a (by simp [ha])
    · simp [Run.ahead, Activation.ahead, Activation.push]

/-- **Returning** is paced. -/
theorem returnValue (h : r.Paced limit start) (hr : r.enters = false) {m : Machine σ}
    (hm : m.Paced limit start) (hsteps : m.steps = r.machine.steps) (v : UInt32) :
    (r.returnValue v m).Paced limit start r := by
  obtain ⟨hleft, hleftSteps⟩ := hm.leave
  unfold Run.returnValue
  split
  · exact h.resume hr hm hsteps v
  · next address haddress =>
    split
    · next f m' hleave =>
      rw [hleave] at hleft
      exact hleft.ends
    · next m' hleave =>
      rw [hleave] at hleft hleftSteps
      have hrecord := m'.keeps_record (.left address v)
      exact h.resume hr (hleft.keeps hrecord rfl rfl) (hleftSteps.trans hsteps) v

/-- **Calling** is paced: the routine begins with the start of a block. -/
theorem callRoutine (h : r.Paced limit start) (hr : r.enters = false) {m : Machine σ}
    (hm : m.Paced limit start) (hsteps : m.steps = r.machine.steps) {caller : Activation}
    (hc : caller.program.Paced) (address : UInt32) (args : List UInt32) :
    (r.callRoutine address args caller m).Paced limit start r := by
  unfold Run.callRoutine
  split
  · next f m' henter =>
    obtain ⟨routines, stack, trace, rfl, -⟩ := Machine.enter_error henter
    exact hm.ends
  · next routine m' henter =>
    have he := (m.enter_spec address args).1 routine m' henter
    obtain ⟨hsound, hroutine⟩ := he.sound hm.sound
    obtain ⟨-, routines, stack, f, trace, rfl⟩ := Machine.enter_ok henter
    refine ⟨⟨⟨hsound, hm.maxSteps, hm.steps⟩, fun a ha => ?_⟩, ?_⟩
    · rcases List.mem_cons.mp ha with rfl | ha
      · exact hroutine.paced
      · rcases List.mem_cons.mp ha with rfl | ha
        · exact hc
        · exact h.programs a (List.mem_cons_of_mem _ ha)
    · exact Run.below_of_ahead hsteps hr (Or.inl hroutine.entersAt_zero)

/-- **Going on** is paced, wherever the operation takes the activation. -/
theorem next (h : r.Paced limit start) {op : Op}
    (hop : r.current.program.ops[r.current.pc]? = some op) (hr : r.enters = false) {m : Machine σ}
    (hm : m.Paced limit start) (hsteps : m.steps = r.machine.steps) {a : Activation}
    (ha : Activation.Moves { r.current with pc := r.current.pc + 1 } op a) :
    (Progress.running { r with machine := m, current := a }).Paced limit start r := by
  have hcurrent := h.programs r.current List.mem_cons_self
  have hlt : r.current.pc < r.current.program.ops.size := (Array.getElem?_eq_some_iff.mp hop).1
  refine ⟨⟨hm, fun b hb => ?_⟩, Run.below_of_ahead hsteps hr ?_⟩
  · rcases List.mem_cons.mp hb with rfl | hb
    · rw [ha.program]
      exact hcurrent
    · exact h.programs b (List.mem_cons_of_mem _ hb)
  · cases ha with
    | stay operands =>
      right
      simp only [Run.ahead, Activation.ahead, List.foldr_cons]
      omega
    -- A jump may lead back, so what goes down is that a block starts where it leads.
    | jump hjump hstart operands => exact Or.inl (hcurrent.starts _ _ hstart)
    | skip hskip operands =>
      subst hskip
      have hforward := hcurrent.skips _ _ hop
      right
      simp only [Run.ahead, Activation.ahead, List.foldr_cons]
      omega

/-- **Entering a block** is paced: it uses up one step, or ends the run. -/
theorem enter (h : r.Paced limit start) {a : Activation} (ha : a.program = r.current.program) :
    (r.transfer (.ofAttempt a r.machine.countStep)).Paced limit start r := by
  have hsteps := h.machine.steps
  unfold Machine.countStep
  simp only [h.machine.maxSteps]
  split
  · next hlimit =>
    show r.machine.steps + 1 ≤ max start limit + 1
    omega
  · next hlimit =>
    have hroom : r.machine.steps + 1 ≤ limit := Nat.not_lt.mp hlimit
    refine ⟨⟨⟨h.machine.sound, h.machine.maxSteps, ?_⟩, fun b hb => ?_⟩, ?_⟩
    · exact Nat.le_trans hroom (Nat.le_max_right _ _)
    · rcases List.mem_cons.mp hb with rfl | hb
      · rw [ha]
        exact h.programs r.current List.mem_cons_self
      · exact h.programs b (List.mem_cons_of_mem _ hb)
    · exact Run.below_of_count rfl hroom

variable [Host σ]

/-- **Steps are paced.** -/
theorem step (h : r.Paced limit start) : r.step.Paced limit start r := by
  cases hop : r.current.program.ops[r.current.pc]? with
  | none =>
    have hr : r.enters = false := Program.not_entersAt fun l => by rw [hop]; exact nofun
    rw [Run.step, hop]
    exact h.returnValue hr h.machine rfl 0
  | some op =>
    rw [Run.step_of_fetch hop]
    -- Only the start of a block is counted; every other operation leaves the budget as it is.
    by_cases henter : ∃ l, op = .enter l
    · obtain ⟨l, rfl⟩ := henter
      exact h.enter rfl
    have hne : ∀ l, op ≠ .enter l := fun l hl => henter ⟨l, hl⟩
    have hr : r.enters = false := by
      refine Program.not_entersAt fun l hl => hne l ?_
      exact Option.some.inj (hop.symm.trans hl)
    have hdoes := op.exec_does { r.current with pc := r.current.pc + 1 } r.machine
    have hkeeps := op.exec_keeps { r.current with pc := r.current.pc + 1 } r.machine
    have hsteps := hdoes.machine.steps hne
    have hlimits := hdoes.machine.limits
    generalize op.exec { r.current with pc := r.current.pc + 1 } r.machine = t
      at hdoes hkeeps hsteps hlimits ⊢
    cases t with
    | next a m =>
      exact h.next hop hr (h.machine.keeps hkeeps.2 hlimits hsteps) hsteps (hdoes.activation a rfl)
    | call address args a m =>
      have ha : a.program = r.current.program := (hdoes.activation a rfl).program
      refine h.callRoutine hr (h.machine.keeps hkeeps.2 hlimits hsteps) hsteps ?_ address args
      rw [ha]
      exact h.programs r.current List.mem_cons_self
    | ret v m => exact h.returnValue hr (h.machine.keeps hkeeps hlimits hsteps) hsteps v
    | halt m => exact (h.machine.keeps hkeeps hlimits hsteps).ends
    | fault f m => exact (h.machine.keeps hkeeps hlimits hsteps).ends

/-- **Paced runs end**, after a certain number of steps and not before. -/
theorem ends (h : r.Paced limit start) :
    ∃ n result m, (Progress.running r).Lasts n ∧
      (Progress.running r).after n = .finished result m ∧ m.steps ≤ max start limit + 1 := by
  -- On the rank of the run, which each step takes down.
  induction r using (Run.below_wf limit).induction with
  | h r ih =>
    have hstep := h.step
    cases hr : r.step with
    | running r' =>
      rw [hr] at hstep
      obtain ⟨n, result, m, hlasts, hafter, hsteps⟩ := ih r' hstep.2 hstep.1
      refine ⟨n + 1, result, m, Progress.Lasts.succ (by rwa [hr]), ?_, hsteps⟩
      rw [Progress.after, hr]
      exact hafter
    | finished result m =>
      rw [hr] at hstep
      have hlasts : r.step.Lasts 0 := fun k hk => absurd hk (Nat.not_lt_zero k)
      refine ⟨1, result, m, hlasts.succ, ?_, hstep⟩
      rw [Progress.after, hr, Progress.after_zero]

end Run.Paced

/-! ## Calls and evaluations -/

variable [Host σ]

/-- **A run that ends** has one answer: none with less than a certain fuel, and the same from there
on. -/
theorem Progress.Lasts.finish {r : Run σ} {n : Nat} {result : Except Fault UInt32} {m : Machine σ}
    (hlasts : (Progress.running r).Lasts n)
    (hafter : (Progress.running r).after n = .finished result m) (fuel : Nat) :
    r.finish fuel = if n ≤ fuel then some (result, m) else none := by
  rw [Run.finish_eq]
  by_cases hfuel : n ≤ fuel
  · rw [if_pos hfuel, ← Nat.add_sub_of_le hfuel, Progress.after_add, hafter,
      Progress.after_finished]
  · obtain ⟨r', hr'⟩ := hlasts fuel (Nat.not_le.mp hfuel)
    rw [if_neg hfuel, hr']

/-- What a paced run settles to. -/
theorem Run.Paced.runFrom {m : Machine σ} {a : Activation} (h : Run.Paced ⟨m, a, []⟩ limit start)
    (base : Nat) :
    ∃ n result m', (∀ fuel, m.runFrom fuel base a = if n ≤ fuel then some (result, m') else none) ∧
      m'.steps ≤ max start limit + 1 := by
  obtain ⟨n, result, m₁, hlasts, hafter, hsteps⟩ := h.ends
  refine ⟨n, (m₁.settle base result).1, (m₁.settle base result).2, fun fuel => ?_, ?_⟩
  · rw [Machine.runFrom, hlasts.finish hafter]
    split <;> rfl
  · obtain ⟨frames, stack, trace, hsettle⟩ := m₁.settle_changes base result
    rw [hsettle]
    exact hsteps

/-- **With a step limit every run ends.** On a machine with a step limit whose routines were read
from some memory, every call of every routine has one answer: with less than a certain fuel there is
none, and from there on it is always the same. No more blocks have been entered then than before or
than the limit allows, but for the one that was too many. The same is true of evaluations. -/
theorem call_terminates {m : Machine σ} {limit : Nat} (hl : m.limits.maxSteps = some limit)
    (hc : m.CachesDecoded) :
    (∀ address args, ∃ n result m',
      (∀ fuel, m.call fuel address args = if n ≤ fuel then some (result, m') else none) ∧
        m'.steps ≤ max m.steps limit + 1) ∧
    ∀ e, ∃ n result m',
      (∀ fuel, m.evaluate fuel e = if n ≤ fuel then some (result, m') else none) ∧
        m'.steps ≤ max m.steps limit + 1 := by
  have hm : m.Paced limit m.steps := ⟨hc.sound, hl, Nat.le_max_left _ _⟩
  refine ⟨fun address args => ?_, fun e => ?_⟩
  · unfold Machine.call
    split
    · exact ⟨0, .ok 0, m, fun fuel => (if_pos (Nat.zero_le fuel)).symm, hm.ends⟩
    · split
      · next f m₁ henter =>
        obtain ⟨routines, stack, trace, rfl, -⟩ := Machine.enter_error henter
        exact ⟨0, .error f, _, fun fuel => (if_pos (Nat.zero_le fuel)).symm, hm.ends⟩
      · next routine m₁ henter =>
        obtain ⟨hsound, hroutine⟩ :=
          ((m.enter_spec address args).1 routine m₁ henter).sound hm.sound
        obtain ⟨-, routines, stack, f, trace, rfl⟩ := Machine.enter_ok henter
        refine Run.Paced.runFrom ⟨⟨hsound, hl, hm.steps⟩, fun a ha => ?_⟩ m.depth
        obtain rfl := List.mem_singleton.mp ha
        exact hroutine.paced
  · refine Run.Paced.runFrom ⟨hm, fun a ha => ?_⟩ m.depth
    obtain rfl := List.mem_singleton.mp ha
    exact Program.paced_ofExpr e

/-- A routine that jumps to its beginning, on a machine that may enter five blocks. -/
def circling : Machine Silent :=
  { memory := { bytes := #[0xC1, 0, 0, 0x20, 1, 0xFF] }
    stack := Stack.empty 16, ramStart := 0, host := {}, limits := { maxSteps := some 5 } }

theorem call_terminates_circling :
    ∃ n m', (∀ fuel, circling.call fuel 0 [] =
        if n ≤ fuel then some (.error (.stepLimitExceeded 5), m') else none) ∧ m'.steps ≤ 6 := by
  have hcaches : circling.CachesDecoded := by
    intro a r hr
    simp [circling] at hr
  obtain ⟨n, result, m', hcall, hsteps⟩ := (call_terminates rfl hcaches).1 0 []
  have hfault : (circling.call 20 0 []).map (·.1) = some (.error (.stepLimitExceeded 5)) := by
    decide +kernel
  rw [hcall 20] at hfault
  split at hfault
  · obtain rfl : result = .error (.stepLimitExceeded 5) := Option.some.inj hfault
    exact ⟨n, m', hcall, hsteps⟩
  · cases hfault

end StoryVM
