import StoryVM.Proofs.Requests

/-! # The report of calls

Entering a routine and leaving it are reported, the first by the machine and the second by the run.
The events are brackets, and the activations that own a frame are the brackets that are open.

* `Event.Balanced`: words in which each event for leaving a routine closes the one for entering it.
* `Event.Nested`: words with brackets that are still open, as they grow event by event. They begin
  balanced words (`Nested.balanced`).
* `Run.Emits`, `Run.Level.step_emits`: what a step reports, and what it does to the activations.
* `Run.Level.reports`: at every moment the open brackets are the activations that own a frame.
* `Machine.call_reports`: calls and evaluations, on every machine. -/

namespace StoryVM

variable {σ : Type}

/-! ## Words -/

namespace Event

/-- **Balanced words**: each routine that was entered is left, after those that were entered in
between. -/
inductive Balanced : List Event → Prop
  | nil : Balanced []
  | call {address value : UInt32} {argCount : Nat} {inner rest : List Event}
    (hinner : Balanced inner) (hrest : Balanced rest) :
    Balanced (.entered address argCount :: inner ++ .left address value :: rest)

/-- Words that close routines, the innermost first. -/
inductive Closes : List UInt32 → List Event → Prop
  | nil {word : List Event} (h : Balanced word) : Closes [] word
  | cons {address value : UInt32} {others : List UInt32} {word rest : List Event}
    (h : Balanced word) (hrest : Closes others rest) :
    Closes (address :: others) (word ++ .left address value :: rest)

/-- **A word that leaves routines open**, the innermost first, and never more than a number of
them. -/
inductive Nested (limit : Nat) : List Event → List UInt32 → Prop
  | nil : Nested limit [] []
  | enter {word : List Event} {open' : List UInt32} (h : Nested limit word open')
    (hroom : open'.length < limit) (address : UInt32) (argCount : Nat) :
    Nested limit (word ++ [.entered address argCount]) (address :: open')
  | leave {word : List Event} {open' : List UInt32} {address : UInt32}
    (h : Nested limit word (address :: open')) (value : UInt32) :
    Nested limit (word ++ [.left address value]) open'

/-- Whether a routine was entered. -/
def isEntered : Event → Bool
  | entered _ _ => true
  | _ => false

/-- Whether a routine was left. -/
def isLeft : Event → Bool
  | left _ _ => true
  | _ => false

/-- The number of routines that were entered and not left. -/
def unclosed (word : List Event) : Nat := word.countP isEntered - word.countP isLeft

variable {limit : Nat} {word part rest : List Event} {as : List UInt32}

/-- What closes routines can begin with a call that is over. -/
theorem Closes.call (address value : UInt32) {inner : List Event} (argCount : Nat)
    (hinner : Balanced inner) (h : Closes as rest) :
    Closes as (.entered address argCount :: inner ++ .left address value :: rest) := by
  cases h with
  | nil h => exact .nil (.call hinner h)
  | @cons a v others word rest h hrest =>
    have hword : Balanced (.entered address argCount :: inner ++ .left address value :: word) :=
      .call hinner h
    have hcloses : Closes (a :: others)
        ((.entered address argCount :: inner ++ .left address value :: word) ++ .left a v :: rest) :=
      .cons hword hrest
    simpa using hcloses

/-- All routines can be closed. -/
theorem exists_closes (as : List UInt32) : ∃ rest, Closes as rest := by
  induction as with
  | nil => exact ⟨[], .nil .nil⟩
  | cons a as ih =>
    obtain ⟨rest, hrest⟩ := ih
    exact ⟨[] ++ .left a 0 :: rest, .cons .nil hrest⟩

namespace Nested

/-- **Closing what is open** balances the word. -/
theorem balanced_append (h : Nested limit word as) (hrest : Closes as rest) :
    Balanced (word ++ rest) := by
  -- By induction on the word from the right; the word that closes it takes up what is split off.
  induction h generalizing rest with
  | nil =>
    cases hrest with
    | nil h => exact h
  | enter h hroom address argCount ih =>
    cases hrest with
    | @cons _ value _ inner rest hinner hrest =>
      have hbalanced := ih (hrest.call address value argCount hinner)
      simpa using hbalanced
  | @leave word open' address h value ih =>
    have hcloses : Closes (address :: open') ([] ++ .left address value :: rest) := .cons .nil hrest
    have hbalanced := ih hcloses
    simpa using hbalanced

theorem balanced (h : Nested limit word []) : Balanced word := by
  have hbalanced := h.balanced_append (.nil .nil)
  rwa [List.append_nil] at hbalanced

theorem exists_balanced (h : Nested limit word as) : ∃ rest, Balanced (word ++ rest) := by
  obtain ⟨rest, hrest⟩ := exists_closes as
  exact ⟨rest, h.balanced_append hrest⟩

theorem length_le (h : Nested limit word as) : as.length ≤ limit := by
  induction h with
  | nil => exact Nat.zero_le limit
  | enter h hroom => exact hroom
  | leave h value ih => exact Nat.le_of_succ_le ih

theorem unclosed_eq (h : Nested limit word as) : unclosed word = as.length := by
  have hcount : word.countP isEntered = word.countP isLeft + as.length := by
    induction h with
    | nil => rfl
    | enter h hroom address argCount ih =>
      simp only [List.countP_append, List.countP_singleton, isEntered, isLeft, List.length_cons, ih]
      simp
      omega
    | leave h value ih =>
      simp only [List.countP_append, List.countP_singleton, isEntered, isLeft] at ih ⊢
      simp at ih ⊢
      omega
  rw [unclosed, hcount, Nat.add_sub_cancel_left]

/-- The beginnings of a word are such words, too. -/
theorem of_prefix (h : Nested limit word as) (hpart : part <+: word) :
    ∃ bs, Nested limit part bs := by
  induction h with
  | nil =>
    obtain rfl := List.prefix_nil.mp hpart
    exact ⟨[], .nil⟩
  | enter h hroom address argCount ih =>
    rcases List.prefix_concat_iff.mp hpart with rfl | hpart
    · exact ⟨_, .enter h hroom address argCount⟩
    · exact ih hpart
  | leave h value ih =>
    rcases List.prefix_concat_iff.mp hpart with rfl | hpart
    · exact ⟨_, .leave h value⟩
    · exact ih hpart

theorem unclosed_le (h : Nested limit word as) (hpart : part <+: word) : unclosed part ≤ limit := by
  obtain ⟨bs, hbs⟩ := h.of_prefix hpart
  rw [hbs.unclosed_eq]
  exact hbs.length_le

end Nested

end Event

/-! ## The report of a machine -/

namespace Machine

/-- **The report of calls**: the events that are worth a trace only. -/
def callReport (m : Machine σ) : List Event := m.trace.toList.filter (·.level = .trace)

theorem callReport_record (m : Machine σ) (e : Event) :
    (m.record e).callReport = m.callReport ++ if e.level = .trace then [e] else [] := by
  simp only [callReport, record, Array.toList_push, List.filter_append, List.filter_singleton]
  by_cases h : e.level = .trace <;> simp [h]

theorem After.callReport {op : Op} {m m' : Machine σ} (h : m.After op m') :
    m'.callReport = m.callReport := by
  cases h with
  | change h => cases h <;> rfl
  | count l =>
    unfold countStep
    dsimp only
    split
    · rfl
    · split
      · rw [callReport_record]
        exact List.append_nil _
      · rfl
  | halt =>
    unfold Machine.halt
    split
    · rfl
    · exact (callReport_record m _).trans (List.append_nil _)

theorem callReport_routineAt (m : Machine σ) (address : UInt32) :
    (m.routineAt address).2.callReport = m.callReport := by
  unfold routineAt
  split
  · rfl
  · split
    · rfl
    · exact (callReport_record m _).trans (List.append_nil _)

theorem callReport_pushFrame (m : Machine σ) (address : UInt32) (argCount : Nat) (f : Frame) :
    (m.pushFrame address argCount f).callReport = m.callReport ++ [.entered address argCount] :=
  callReport_record m _

/-- **A routine that is entered** is reported. -/
theorem callReport_enter {m m' : Machine σ} {address : UInt32} {args : List UInt32} {r : Routine}
    (h : m.enter address args = (.ok r, m')) :
    m'.callReport = m.callReport ++ [.entered address args.length] := by
  have hreport := m.callReport_routineAt address
  have hentry := m.enter_entry address args
  rw [h] at hentry
  cases hentry with
  | enters hdepth hat stack f =>
    rw [hat] at hreport
    rw [callReport_pushFrame, ← hreport]
    rfl

/-- **A routine that is not entered** is not reported as a call. -/
theorem callReport_enter_error {m m' : Machine σ} {address : UInt32} {args : List UInt32} {f : Fault}
    (h : m.enter address args = (.error f, m')) : m'.callReport = m.callReport := by
  have hreport := m.callReport_routineAt address
  have hentry := m.enter_entry address args
  rw [h] at hentry
  cases hentry with
  | full => exact (callReport_record m _).trans (List.append_nil _)
  | unread hdepth hat =>
    rw [hat] at hreport
    exact hreport
  | declines hdepth hat hpointer =>
    rw [hat] at hreport
    exact hreport

theorem callReport_leave (m : Machine σ) : m.leave.2.callReport = m.callReport := by
  obtain ⟨frames, stack, h⟩ := m.leave_changes
  rw [h]
  rfl

theorem callReport_unwind (m : Machine σ) (n : Nat) : (m.unwind n).callReport = m.callReport := by
  induction n generalizing m with
  | zero => rfl
  | succ n ih =>
    have hleave := m.callReport_leave
    unfold unwind
    split
    · next m' h =>
      rw [h] at hleave
      exact (ih m').trans hleave
    · next f m' h =>
      rw [h] at hleave
      exact ((callReport_record m' _).trans (List.append_nil _)).trans hleave

end Machine

/-! ## Steps -/

/-- **The routines that are running**, innermost first. -/
def Run.openCalls (r : Run σ) : List UInt32 := (r.current :: r.suspended).filterMap (·.routine)

/-- **What a step reports.** A routine that is entered is reported with the number of its arguments,
and gets an activation and a frame. A routine that is left is reported with its value, which the
activation that waits for it gets, or which is the result of the run; its frame is gone. -/
inductive Run.Emits (r : Run σ) : Progress σ → List Event → Prop
  | goesOn {m : Machine σ} {a : Activation} (ha : a.routine = r.current.routine)
    (hdepth : m.depth = r.machine.depth) : r.Emits (.running ⟨m, a, r.suspended⟩) []
  | calls {m₀ m : Machine σ} {routine : Routine} {address : UInt32} {args : List UInt32}
    {caller : Activation} (hcaller : caller.routine = r.current.routine)
    (hroom : r.machine.depth < r.machine.limits.maxDepth)
    (henter : m₀.enter address args = (.ok routine, m)) (hdepth : m.depth = r.machine.depth + 1) :
    r.Emits (.running ⟨m, .ofRoutine routine address, caller :: r.suspended⟩)
      [.entered address args.length]
  | returns {m : Machine σ} {address value : UInt32} (hroutine : r.current.routine = some address)
    (hdepth : m.depth + 1 = r.machine.depth) :
    r.Emits (Run.resume m r.suspended value) [.left address value]
  | ends {m : Machine σ} {value : UInt32} (hroutine : r.current.routine = none)
    (hdepth : m.depth = r.machine.depth) : r.Emits (Run.resume m r.suspended value) []
  | abandons {result : Except Fault UInt32} {m : Machine σ}
    (hresult : (∃ f, result = .error f) ∨ m.halted = true) (hdepth : m.depth = r.machine.depth) :
    r.Emits (.finished result m) []

/-- A step from a run to another progress reports events. -/
def Run.Reports (r : Run σ) (p : Progress σ) : Prop :=
  ∃ new, p.machine.callReport = r.machine.callReport ++ new ∧ r.Emits p new

variable {isCall : Prop} {start : Machine σ} {r : Run σ}

namespace Run.Level

theorem reports_returnValue (h : r.Level isCall start) {m : Machine σ}
    (hk : Machine.Keeps false r.machine m) (hreport : m.callReport = r.machine.callReport)
    (v : UInt32) : r.Reports (r.returnValue v m) := by
  have hm : m.LeavableFrom start.depth := h.leavable.keeps hk
  have hdepth := h.depth
  unfold Run.returnValue
  cases hroutine : r.current.routine with
  | none =>
    refine ⟨[], ?_, .ends hroutine hk.depth⟩
    rw [Run.machine_resume, hreport, List.append_nil]
  | some address =>
    have hlive : 0 < r.live :=
      List.countP_pos_iff.mpr ⟨r.current, List.mem_cons_self, by rw [hroutine]; rfl⟩
    obtain ⟨m', f, hleave, hframes, -, -⟩ := hm.leave (by rw [hk.depth]; omega)
    have hsize : m.depth = m'.depth + 1 := by simp [Machine.depth, hframes]
    have hleft := m.callReport_leave
    rw [hleave] at hleft
    simp only [hleave]
    refine ⟨[.left address v], ?_, .returns hroutine ?_⟩
    · rw [Run.machine_resume, Machine.callReport_record, hleft, hreport]
      rfl
    · exact hsize.symm.trans hk.depth

theorem reports_callRoutine {m : Machine σ} (hk : Machine.Keeps false r.machine m)
    (hl : m.limits = r.machine.limits) (hreport : m.callReport = r.machine.callReport)
    {caller : Activation} (ha : caller.routine = r.current.routine) (address : UInt32)
    (args : List UInt32) : r.Reports (r.callRoutine address args caller m) := by
  unfold Run.callRoutine
  split
  · next f m' henter =>
    have hk' := (m.enter_spec address args).2 f m' henter
    refine ⟨[], ?_, .abandons (.inl ⟨f, rfl⟩) (hk'.depth.trans hk.depth)⟩
    rw [List.append_nil, ← hreport]
    exact Machine.callReport_enter_error henter
  · next routine m' henter =>
    obtain ⟨hroom, routines, stack, f, trace, hm'⟩ := Machine.enter_ok henter
    have hsize : m'.depth = m.depth + 1 := by simp [Machine.depth, hm']
    refine ⟨[.entered address args.length], ?_, .calls ha ?_ henter ?_⟩
    · rw [← hreport]
      exact Machine.callReport_enter henter
    · rw [← hl, ← hk.depth]
      exact hroom
    · rw [hsize, hk.depth]

/-- **A step reports** what it does. -/
theorem step_reports [Host σ] (h : r.Level isCall start) : r.Reports r.step := by
  cases hop : r.current.program.ops[r.current.pc]? with
  | none =>
    rw [Run.step, hop]
    exact h.reports_returnValue (.refl _) rfl 0
  | some op =>
    rw [Run.step_of_fetch hop]
    have hk := op.exec_keeps { r.current with pc := r.current.pc + 1 } r.machine
    have hafter := (op.exec_does { r.current with pc := r.current.pc + 1 } r.machine).machine
    have hl := hafter.limits
    have hreport := hafter.callReport
    generalize op.exec { r.current with pc := r.current.pc + 1 } r.machine = t at hk hl hreport ⊢
    cases t with
    | next a m => exact ⟨[], hreport.trans (List.append_nil _).symm, .goesOn hk.1 hk.2.depth⟩
    | call address args a m => exact reports_callRoutine hk.2 hl hreport hk.1 address args
    | ret v m => exact h.reports_returnValue hk hreport v
    | halt m =>
      refine ⟨[], hreport.trans (List.append_nil _).symm, .abandons (.inr ?_) hk.depth⟩
      rw [hk.halted, Bool.or_true]
    | fault f m =>
      exact ⟨[], hreport.trans (List.append_nil _).symm, .abandons (.inl ⟨f, rfl⟩) hk.depth⟩

end Run.Level

/-! ## Runs -/

/-- **The report of a run so far** begins a balanced word. What is open are the routines that are
running, and there are as many frames more than at the start. -/
structure Progress.Reported (p : Progress σ) (start : Machine σ) (word : List Event) : Prop where
  report : p.machine.callReport = start.callReport ++ word
  begun : ∃ rest, Event.Balanced (word ++ rest)
  nested : ∃ as, Event.Nested (start.limits.maxDepth - start.depth) word as ∧
    p.machine.depth = start.depth + as.length ∧ ∀ r, p = .running r → as = r.openCalls

theorem Progress.reported_of_nested {p : Progress σ} {word : List Event} {as : List UInt32}
    (hreport : p.machine.callReport = start.callReport ++ word)
    (hnested : Event.Nested (start.limits.maxDepth - start.depth) word as)
    (hdepth : p.machine.depth = start.depth + as.length)
    (hopen : ∀ r, p = .running r → as = r.openCalls) : p.Reported start word :=
  ⟨hreport, hnested.exists_balanced, as, hnested, hdepth, hopen⟩

theorem Run.openCalls_eq (m : Machine σ) (a : Activation) (suspended : List Activation) :
    Run.openCalls ⟨m, a, suspended⟩ = a.routine.toList ++ suspended.filterMap (·.routine) := by
  unfold Run.openCalls
  rw [List.filterMap_cons]
  cases a.routine <;> rfl

/-- Handing a value on leaves open what the waiting activations are. -/
theorem Run.resume_openCalls {m : Machine σ} {suspended : List Activation} {v : UInt32} {r' : Run σ}
    (h : Run.resume m suspended v = .running r') :
    r'.openCalls = suspended.filterMap (·.routine) := by
  cases suspended with
  | nil => cases h
  | cons caller rest =>
    cases h
    rw [Run.openCalls_eq, List.filterMap_cons]
    show caller.routine.toList ++ _ = _
    cases caller.routine <;> rfl

/-- **Steps keep the report in step** with the activations and the frames. -/
theorem Run.Emits.reported {p : Progress σ} {word new : List Event} (h : r.Level isCall start)
    (hr : (Progress.running r).Reported start word) (hemits : r.Emits p new)
    (hreport : p.machine.callReport = r.machine.callReport ++ new) :
    p.Reported start (word ++ new) := by
  obtain ⟨as, hnested, hdepth, hopen⟩ := hr.nested
  have hopen := hopen r rfl
  have hdepth : r.machine.depth = start.depth + as.length := hdepth
  have hword : p.machine.callReport = start.callReport ++ (word ++ new) := by
    rw [hreport, ← List.append_assoc, ← hr.report]
    rfl
  have hcurrent : as = r.current.routine.toList ++ r.suspended.filterMap (·.routine) :=
    hopen.trans (Run.openCalls_eq r.machine r.current r.suspended)
  cases hemits with
  | goesOn ha hm =>
    rw [List.append_nil] at hword ⊢
    refine Progress.reported_of_nested hword hnested (hm.trans hdepth) ?_
    rintro _ ⟨⟩
    rw [Run.openCalls_eq, ha]
    exact hcurrent
  | @calls m₀ m routine address args caller hcaller hroom henter hm =>
    have hlimits := h.limits
    have hless : as.length < start.limits.maxDepth - start.depth := by
      rw [hlimits] at hroom
      omega
    refine Progress.reported_of_nested hword (.enter hnested hless address args.length) ?_ ?_
    · rw [List.length_cons]
      exact hm.trans (by omega)
    · rintro _ ⟨⟩
      have hrest := Run.openCalls_eq m caller r.suspended
      rw [hcaller, ← hcurrent] at hrest
      rw [Run.openCalls_eq, List.filterMap_cons]
      rw [Run.openCalls, List.filterMap_cons] at hrest
      exact congrArg _ hrest.symm
  | @returns m address value hroutine hm =>
    rw [hroutine] at hcurrent
    have hcons : as = address :: r.suspended.filterMap (·.routine) := hcurrent
    rw [hcons] at hnested hdepth
    refine Progress.reported_of_nested hword (.leave hnested value) ?_
      fun r' hr' => (Run.resume_openCalls hr').symm
    rw [Run.machine_resume]
    rw [List.length_cons] at hdepth
    omega
  | @ends m value hroutine hm =>
    rw [hroutine] at hcurrent
    have hrest : as = r.suspended.filterMap (·.routine) := hcurrent
    rw [List.append_nil] at hword ⊢
    refine Progress.reported_of_nested hword hnested ?_
      fun r' hr' => hrest.trans (Run.resume_openCalls hr').symm
    rw [Run.machine_resume]
    exact hm.trans hdepth
  | abandons hresult hm =>
    rw [List.append_nil] at hword ⊢
    exact Progress.reported_of_nested hword hnested (hm.trans hdepth) nofun

/-- **The report of a whole run**: after the events before its first step there are those of each
step. -/
structure Run.ReportsAlong [Host σ] (r : Run σ) (start : Machine σ) (first : List Event)
    (events : Nat → List Event) : Prop where
  emits : ∀ k r', (Progress.running r).after k = .running r' →
    r'.Emits ((Progress.running r).after (k + 1)) (events k)
  reported : ∀ n,
    ((Progress.running r).after n).Reported start (first ++ (List.range n).flatMap events)

/-- **Runs report** what they do. -/
theorem Run.Level.exists_reportsAlong [Host σ] {first : List Event} (h : r.Level isCall start)
    (hfirst : (Progress.running r).Reported start first) :
    ∃ events, r.ReportsAlong start first events := by
  have hlevel : ∀ k, ((Progress.running r).after k).Level isCall start := by
    have hstart : (Progress.running r).Level isCall start := h
    exact hstart.after
  have hsteps : ∀ k, ∃ new,
      ((Progress.running r).after (k + 1)).machine.callReport =
        ((Progress.running r).after k).machine.callReport ++ new ∧
      ∀ r', (Progress.running r).after k = .running r' →
        r'.Emits ((Progress.running r).after (k + 1)) new := by
    intro k
    have hk := hlevel k
    rw [Progress.after_add]
    cases hafter : (Progress.running r).after k with
    | finished result m => exact ⟨[], (List.append_nil _).symm, nofun⟩
    | running r₁ =>
      rw [hafter] at hk
      obtain ⟨new, hreport, hemits⟩ := Run.Level.step_reports hk
      refine ⟨new, hreport, ?_⟩
      rintro _ ⟨⟩
      exact hemits
  choose events hreport hemits using hsteps
  refine ⟨events, fun k r' => hemits k r', fun n => ?_⟩
  -- Once the run has ended nothing more is reported; until then each step adds what it emits.
  induction n with
  | zero =>
    rw [List.range_zero, List.flatMap_nil, List.append_nil]
    exact hfirst
  | succ n ih =>
    have hn := hlevel n
    have hreport := hreport n
    have hemits := hemits n
    rw [List.range_succ, List.flatMap_append, List.flatMap_singleton, ← List.append_assoc]
    generalize first ++ (List.range n).flatMap events = word at ih ⊢
    rw [Progress.after_add] at hreport hemits ⊢
    cases hafter : (Progress.running r).after n with
    | finished result m =>
      rw [hafter] at ih hreport
      have hnone : events n = [] := List.self_eq_append_right.mp hreport
      rw [hnone, List.append_nil]
      exact ih
    | running r₁ =>
      rw [hafter] at ih hreport hemits hn
      exact (hemits r₁ rfl).reported hn ih hreport

/-! ## Calls and evaluations -/

namespace Machine

/-- **What is reported of a call or an evaluation**, from the machine it began with to the one that it
gave back. `ended` is the machine at the end of its run. -/
structure Settled (m : Machine σ) (word : List Event) (ended : Machine σ)
    (result : Except Fault UInt32) (m' : Machine σ) : Prop where
  report : m'.callReport = m.callReport ++ word
  begun : ∃ rest, Event.Balanced (word ++ rest)
  returned : ∀ v, result = .ok v → m'.halted = false → Event.Balanced word
  abandoned : (∃ f, result = .error f) ∨ m'.halted = true →
    ended.depth = m.depth + Event.unclosed word ∧ m' = ended.unwind (Event.unclosed word) ∧
      m'.depth = m.depth
  nesting : ∀ part, part <+: word → Event.unclosed part ≤ m.limits.maxDepth - m.depth

theorem halted_unwind (m : Machine σ) (n : Nat) : (m.unwind n).halted = m.halted := by
  obtain ⟨frames, stack, trace, h⟩ := m.unwind_changes n
  rw [h]

/-- **Settling** leaves the routines that are open. -/
theorem EndsLevel.settled {m ended : Machine σ} {outcome : Except Fault UInt32} {word : List Event}
    (hlevel : ended.EndsLevel isCall m outcome)
    (hr : (Progress.finished outcome ended).Reported m word) :
    m.Settled word ended (ended.settle m.depth outcome).1 (ended.settle m.depth outcome).2 := by
  obtain ⟨as, hnested, hdepth, -⟩ := hr.nested
  have hdepth : ended.depth = m.depth + as.length := hdepth
  have hunclosed := hnested.unclosed_eq
  have hback := hlevel.settle.1
  have hnesting : ∀ part, part <+: word → Event.unclosed part ≤ m.limits.maxDepth - m.depth :=
    fun part hpart => hnested.unclosed_le hpart
  have hunwind : ended.unwind (ended.depth - m.depth) = ended.unwind (Event.unclosed word) := by
    rw [hunclosed, hdepth, Nat.add_sub_cancel_left]
  have hreport : (ended.unwind (ended.depth - m.depth)).callReport = m.callReport ++ word :=
    (callReport_unwind _ _).trans hr.report
  unfold Machine.settle at hback ⊢
  split at hback
  · exact ⟨hreport, hnested.exists_balanced, nofun,
      fun _ => ⟨by rw [hunclosed]; exact hdepth, hunwind, hback⟩, hnesting⟩
  · next v =>
    by_cases hhalted : ended.halted = true
    · simp only [hhalted, if_true] at hback ⊢
      refine ⟨hreport, hnested.exists_balanced, fun v' _ hrunning => ?_,
        fun _ => ⟨by rw [hunclosed]; exact hdepth, hunwind, hback⟩, hnesting⟩
      rw [halted_unwind, hhalted] at hrunning
      cases hrunning
    · have hnone : as = [] := by
        have hleft := hlevel.left v rfl (by simpa using hhalted)
        exact List.length_eq_zero_iff.mp (by omega)
      simp only [hhalted] at hback ⊢
      refine ⟨hr.report, hnested.exists_balanced, fun v' _ _ => ?_, ?_, hnesting⟩
      · rw [hnone] at hnested
        exact hnested.balanced
      · rintro (⟨f, ⟨⟩⟩ | hhalted')
        exact absurd hhalted' hhalted

/-- Nothing is reported of a call that is not begun. -/
theorem settled_of_depth {m m' : Machine σ} (hd : m'.depth = m.depth)
    (hreport : m'.callReport = m.callReport) (result : Except Fault UInt32) :
    m.Settled [] m' result m' where
  report := hreport.trans (List.append_nil _).symm
  begun := ⟨[], .nil⟩
  returned _ _ _ := .nil
  abandoned _ := ⟨hd, rfl, hd⟩
  nesting part hpart := by
    obtain rfl := List.prefix_nil.mp hpart
    exact Nat.zero_le _

end Machine

variable [Host σ]

/-- The report of a run that has ended is settled. -/
theorem Run.Level.settled {m : Machine σ} {a : Activation} {first : List Event}
    {events : Nat → List Event} (h : Run.Level ⟨start, a, []⟩ isCall m)
    (hreports : Run.ReportsAlong ⟨start, a, []⟩ m first events) {fuel : Nat}
    {result : Except Fault UInt32} {m' : Machine σ}
    (hrun : start.runFrom fuel m.depth a = some (result, m')) :
    ∃ outcome ended, Run.finish fuel ⟨start, a, []⟩ = some (outcome, ended) ∧
      m.Settled (first ++ (List.range fuel).flatMap events) ended result m' := by
  obtain ⟨⟨outcome, ended⟩, hfinish, hsettle⟩ := Option.map_eq_some_iff.mp hrun
  refine ⟨outcome, ended, hfinish, ?_⟩
  have hreported := hreports.reported fuel
  rw [Run.after_of_finish hfinish] at hreported
  have hsettled := (h.finish hfinish).settled hreported
  rwa [hsettle] at hsettled

/-- **Calls are reported well nested**, on every machine. A call that is not begun, because the
machine is halted or the routine is not entered, reports nothing. Along the run of any other, and of
an evaluation, each step reports what it does, the report begins a balanced word, and what is open in
it are the routines that are running. When it is over, the report is balanced if there is a result and
the machine is not halted; after a fault or a halt as many routines are open as are left to get back.
No more are open at a time than the limit allows. -/
theorem Machine.call_reports (m : Machine σ) :
    (∀ address args fuel result m', m.halted = true ∨ (∃ f, (m.enter address args).1 = .error f) →
      m.call fuel address args = some (result, m') → m.Settled [] m' result m') ∧
    (∀ address args routine entered, m.halted = false →
      m.enter address args = (.ok routine, entered) →
      ∃ events, Run.ReportsAlong ⟨entered, .ofRoutine routine address, []⟩ m
          [.entered address args.length] events ∧
        ∀ fuel result m', m.call fuel address args = some (result, m') →
          ∃ outcome ended,
            Run.finish fuel ⟨entered, .ofRoutine routine address, []⟩ = some (outcome, ended) ∧
              m.Settled (.entered address args.length :: (List.range fuel).flatMap events) ended result
                m') ∧
    ∀ e, ∃ events, Run.ReportsAlong ⟨m, { program := Program.ofExpr e }, []⟩ m [] events ∧
      ∀ fuel result m', m.evaluate fuel e = some (result, m') →
        ∃ outcome ended,
          Run.finish fuel ⟨m, { program := Program.ofExpr e }, []⟩ = some (outcome, ended) ∧
            m.Settled ((List.range fuel).flatMap events) ended result m' := by
  refine ⟨?_, ?_, ?_⟩
  · intro address args fuel result m' hnone hcall
    unfold Machine.call at hcall
    split at hcall
    · cases hcall
      exact Machine.settled_of_depth rfl rfl (.ok 0)
    · next hhalted =>
      obtain ⟨f, hf⟩ := hnone.resolve_left hhalted
      rcases henter : m.enter address args with ⟨f' | routine, m₁⟩
      · rw [henter] at hcall
        cases hcall
        obtain ⟨routines, stack, trace, hm₁, -⟩ := Machine.enter_error henter
        refine Machine.settled_of_depth ?_ (Machine.callReport_enter_error henter) _
        rw [hm₁]
        rfl
      · rw [henter] at hf
        cases hf
  · intro address args routine entered hrunning henter
    have hlevel := Machine.level_of_enter henter
    obtain ⟨hroom, routines, stack, f, trace, hentered⟩ := Machine.enter_ok henter
    have hdepth : entered.depth = m.depth + 1 := by simp [Machine.depth, hentered]
    have hnested : Event.Nested (m.limits.maxDepth - m.depth) ([] ++ [.entered address args.length])
        [address] := .enter .nil (by rw [List.length_nil]; omega) address args.length
    obtain ⟨events, hreports⟩ := hlevel.exists_reportsAlong
      (Progress.reported_of_nested (Machine.callReport_enter henter) hnested hdepth
        (by rintro _ ⟨⟩; rfl))
    refine ⟨events, hreports, fun fuel result m' hcall => ?_⟩
    have hrun : entered.runFrom fuel m.depth (.ofRoutine routine address) = some (result, m') := by
      rw [Machine.call, henter] at hcall
      simpa [hrunning] using hcall
    exact hlevel.settled hreports hrun
  · intro e
    have hlevel := m.level_of_expr e
    obtain ⟨events, hreports⟩ := hlevel.exists_reportsAlong
      (Progress.reported_of_nested (List.append_nil _).symm .nil rfl (by rintro _ ⟨⟩; rfl))
    exact ⟨events, hreports, fun fuel result m' heval => hlevel.settled hreports heval⟩

/-- A routine that returns what another one returns. -/
def relaying : Machine Silent :=
  { memory := { bytes := #[0xC1, 0, 0, 0x30, 1, 8, 9, 0x31, 8, 0xC1, 0, 0, 0x31, 1, 7] }
    stack := Stack.empty 16, ramStart := 0, host := {} }

theorem Machine.call_reports_relaying :
    (∃ m', relaying.call 20 0 [] = some (.ok 7, m') ∧
      Event.Balanced [.entered 0 0, .entered 9 0, .left 9 7, .left 0 7] ∧
      m'.callReport = [.entered 0 0, .entered 9 0, .left 9 7, .left 0 7]) ∧
    ∃ m' ended : Machine Silent, descending.call 20 0 [] = some (.error (.callDepthExceeded 3), m') ∧
      m'.callReport = [.entered 0 0, .entered 0 0, .entered 0 0] ∧ ended.depth = 3 ∧
      m' = ended.unwind 3 := by
  have hrun : ∀ m : Machine Silent, (m.enter 0 []).1.toOption.isSome = true → m.halted = false →
      m.callReport = [] → ∀ result m', m.call 20 0 [] = some (result, m') →
        ∃ ended, m.Settled m'.callReport ended result m' := by
    intro m henter hhalted hnone result m' hcall
    obtain ⟨-, hruns, -⟩ := Machine.call_reports m
    rcases h : m.enter 0 [] with ⟨f | routine, entered⟩
    · rw [h] at henter
      cases henter
    · obtain ⟨events, -, hsettled⟩ := hruns 0 [] routine entered hhalted h
      obtain ⟨outcome, ended, -, hsettled⟩ := hsettled 20 result m' hcall
      have hreport := hsettled.report
      rw [hnone, List.nil_append] at hreport
      exact ⟨ended, hreport ▸ hsettled⟩
  constructor
  · have hresult : (relaying.call 20 0 []).map (fun p => (p.1, p.2.callReport, p.2.halted)) =
        some (.ok 7, [.entered 0 0, .entered 9 0, .left 9 7, .left 0 7], false) := by
      decide +kernel
    obtain ⟨⟨result, m'⟩, hcall, hresult⟩ := Option.map_eq_some_iff.mp hresult
    obtain ⟨rfl, hreport, hhalted⟩ : result = .ok 7 ∧ m'.callReport = _ ∧ m'.halted = false := by
      simpa using hresult
    obtain ⟨ended, hsettled⟩ := hrun relaying (by decide +kernel) rfl rfl _ m' hcall
    exact ⟨m', hcall, hreport ▸ hsettled.returned 7 rfl hhalted, hreport⟩
  · have hresult : (descending.call 20 0 []).map (fun p => (p.1, p.2.callReport)) =
        some (.error (.callDepthExceeded 3), [.entered 0 0, .entered 0 0, .entered 0 0]) := by
      decide +kernel
    obtain ⟨⟨result, m'⟩, hcall, hresult⟩ := Option.map_eq_some_iff.mp hresult
    obtain ⟨rfl, hreport⟩ : result = .error (.callDepthExceeded 3) ∧ m'.callReport = _ := by
      simpa using hresult
    obtain ⟨ended, hsettled⟩ := hrun descending (by decide +kernel) rfl rfl _ m' hcall
    obtain ⟨hdepth, hunwind, -⟩ := hsettled.abandoned (.inl ⟨_, rfl⟩)
    rw [hreport] at hdepth hunwind
    exact ⟨m', ended, hcall, hreport, hdepth, hunwind⟩

end StoryVM
