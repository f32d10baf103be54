import StoryVM.Proofs.Bare
import StoryVM.Proofs.Locality
import StoryVM.Proofs.ReadOnly

/-! # The routines read so far

A machine reads each routine once and then keeps it, although writable memory may have changed by the
time of the next call. For routines that lie in read-only memory this makes no difference
(`cache_unobservable`): a machine that forgets all routines before each step, and so reads each
routine again for each call, gives the same answers and comes to the same state.

* `Machine.performAllAfresh`: performs requests and reads each routine again for each call.
* `Machine.calls`, `Machine.obtained`: the calls that a request comes to, and the addresses of the
  routines that it gets for them.
* `Machine.Descends`: the routines below the start of writable memory that a machine has read are
  those of the memory that it started with. -/

namespace StoryVM

variable {σ : Type}

/-! ## Machines that forget -/

/-- The machine without the routines it has read. -/
def Machine.forget (m : Machine σ) : Machine σ := { m with routines := ∅ }

section Afresh

variable [Host σ]

/-- **Runs to the end**, as `Run.finish` does, but with the routines forgotten before each step. -/
def Run.finishAfresh : (fuel : Nat) → Run σ → Option (Except Fault UInt32 × Machine σ)
  | 0, _ => none
  | fuel + 1, r =>
    match Run.step { r with machine := r.machine.forget } with
    | .running r => finishAfresh fuel r
    | .finished result m => some (result, m)

namespace Machine

/-- Runs an activation to the end and settles it; each routine is read again for each call. -/
def runFromAfresh (m : Machine σ) (fuel base : Nat) (a : Activation) :
    Option (Except Fault UInt32 × Machine σ) :=
  (Run.finishAfresh fuel ⟨m, a, []⟩).map fun p => settle base p.1 p.2

/-- Calls the routine at an address; each routine is read again for each call. -/
def callAfresh (m : Machine σ) (fuel : Nat) (address : UInt32) (args : List UInt32) :
    Option (Except Fault UInt32 × Machine σ) :=
  if m.halted then some (.ok 0, m)
  else
    match m.forget.enter address args with
    | (.error f, m) => some (.error f, m)
    | (.ok routine, entered) => entered.runFromAfresh fuel m.depth (.ofRoutine routine address)

/-- Performs a request; each routine is read again for each call. -/
def performAfresh (m : Machine σ) (fuel : Nat) :
    Request σ → Option (Except Fault Answer × Machine σ)
  | .call address args =>
    (m.callAfresh fuel address args).map fun p => (p.1.map .value, p.2)
  | .evaluate e =>
    (m.runFromAfresh fuel m.depth { program := Program.ofExpr e }).map fun p =>
      (p.1.map .value, p.2)
  | request => m.forget.perform fuel request

/-- **Performs requests one after the other**; each routine is read again for each call. -/
def performAllAfresh (fuel : Nat) :
    List (Request σ) → Machine σ → Option (List (Except Fault Answer) × Machine σ)
  | [], m => some ([], m)
  | request :: rest, m => do
    let (answer, m) ← m.performAfresh fuel request
    let (answers, m) ← performAllAfresh fuel rest m
    return (answer :: answers, m)

end Machine

/-! ## Calls -/

/-- The machine has room for another frame and gets the routine. -/
def Call.obtains (c : Call σ) : Bool :=
  decide (c.machine.depth < c.machine.limits.maxDepth) && (c.machine.routineAt c.address).1.isOk

/-- The routine is entered. -/
def Call.enters (c : Call σ) : Bool := (c.machine.enter c.address c.args).1.isOk

/-- The calls that a run makes in at most `fuel` steps. -/
def Run.calls : (fuel : Nat) → Run σ → List (Call σ)
  | 0, _ => []
  | fuel + 1, r => r.call?.toList ++
    match r.step with
    | .running r => calls fuel r
    | .finished _ _ => []

namespace Machine

/-- The run that a request starts, if it starts one. -/
def start? (m : Machine σ) : Request σ → Option (Run σ)
  | .call address args =>
    if m.halted then none
    else
      match m.enter address args with
      | (.ok routine, entered) => some ⟨entered, .ofRoutine routine address, []⟩
      | (.error _, _) => none
  | .evaluate e => some ⟨m, { program := Program.ofExpr e }, []⟩
  | _ => none

/-- **The calls that a request comes to**: the one that it asks for and those of its run. -/
def calls (m : Machine σ) (fuel : Nat) (request : Request σ) : List (Call σ) :=
  (match request with
    | .call address args => if m.halted then [] else [⟨m, address, args⟩]
    | _ => []) ++ (m.start? request).elim [] (Run.calls fuel)

/-- **The addresses of the routines that a request gets**, to call them or to give them back. -/
def obtained (m : Machine σ) (fuel : Nat) : Request σ → List UInt32
  | .routine address => if (m.routineAt address).1.isOk then [address] else []
  | request => ((m.calls fuel request).filter Call.obtains).map Call.address

/-- **The addresses of the routines that a request enters.** -/
def entered (m : Machine σ) (fuel : Nat) (request : Request σ) : List UInt32 :=
  ((m.calls fuel request).filter Call.enters).map Call.address

/-- Requests in sequence, each with the machine that it is made of. -/
def stages (fuel : Nat) : List (Request σ) → Machine σ → List (Machine σ × Request σ)
  | [], _ => []
  | request :: rest, m => (m, request) ::
    match m.perform fuel request with
    | none => []
    | some (_, m) => stages fuel rest m

/-- **The points that requests in sequence come to**: before each of them, during the run of one, and
after the last. -/
inductive Visits (fuel : Nat) (requests : List (Request σ)) (m : Machine σ) : Machine σ → Prop
  | before {m' : Machine σ} {request : Request σ} (h : (m', request) ∈ stages fuel requests m) :
    Visits fuel requests m m'
  | during {m' : Machine σ} {request : Request σ} {r : Run σ}
    (h : (m', request) ∈ stages fuel requests m) (hr : m'.start? request = some r) (n : Nat) :
    Visits fuel requests m ((Progress.running r).after n).machine
  | after {answers : List (Except Fault Answer)} {m' : Machine σ}
    (h : performAll fuel requests m = some (answers, m')) : Visits fuel requests m m'

end Machine

end Afresh

/-! ## Routines in read-only memory -/

namespace Machine

/-- The routine at an address lies below the start of writable memory. -/
def inRom (m : Machine σ) (address : UInt32) : Bool :=
  Routine.liesBelow m.memory address m.ramStart.toNat

/-- All that lies below the start of writable memory is protected. -/
structure Guarded (start : Machine σ) : Prop where
  size : start.memory.size < 0x100000000
  rom : ∀ i < start.ramStart.toNat, start.memory.Protected i

/-- **What the machine has read from read-only memory** is what was there at the start. -/
structure Descends (m start : Machine σ) : Prop where
  memory : start.memory.Grows m.memory
  ramStart : m.ramStart = start.ramStart
  cached : ∀ (a : UInt32) r, m.routines[a]? = some r → start.inRom a = true →
    Routine.decode start.memory a start.ramStart = .ok r

variable {start m m' : Machine σ}

theorem Descends.decode (h : m.Descends start) (hg : start.Guarded) {address : UInt32}
    (ha : start.inRom address = true) : Routine.decode m.memory address m.ramStart =
      Routine.decode start.memory address start.ramStart := by
  have hholds : start.memory.Holds m.memory start.ramStart.toNat :=
    ⟨h.memory.size, fun i hi hsize => h.memory.bytes i hsize (hg.rom i hi)⟩
  rw [h.ramStart]
  exact Routine.decode_of_holds hg.size hholds ha start.ramStart

theorem Descends.upToDate (h : m.Descends start) (hg : start.Guarded) {address : UInt32}
    (ha : start.inRom address = true) : m.UpToDate address := by
  intro r hr
  rw [h.decode hg ha]
  exact h.cached address r hr ha

theorem Descends.of_same (h : m.Descends start) (hmemory : m.memory.Grows m'.memory)
    (hramStart : m'.ramStart = m.ramStart) (hroutines : m'.routines = m.routines) :
    m'.Descends start where
  memory := h.memory.trans hmemory
  ramStart := hramStart.trans h.ramStart
  cached := by
    rw [hroutines]
    exact h.cached

/-- A routine that is read anew is read from memory as it is. -/
theorem Descends.routineAt (h : m.Descends start) (hg : start.Guarded) (address : UInt32) :
    (m.routineAt address).2.Descends start := by
  obtain ⟨routines, trace, hat⟩ := m.routineAt_changes address
  refine ⟨?_, ?_, fun a r hget ha => ?_⟩
  · rw [hat]
    exact h.memory
  · rw [hat]
    exact h.ramStart
  · rcases cached_of_routineAt hget with hold | ⟨rfl, hdecode⟩
    · exact h.cached a r hold ha
    · rw [← h.decode hg ha, hdecode]

theorem After.routines {op : Op} (h : m.After op m') :
    m'.routines = m.routines ∧ m'.ramStart = m.ramStart := by
  cases h with
  | change h => cases h <;> exact ⟨rfl, rfl⟩
  | count l =>
    unfold countStep
    dsimp only
    split
    · exact ⟨rfl, rfl⟩
    · split <;> exact ⟨rfl, rfl⟩
  | halt =>
    unfold Machine.halt
    split <;> exact ⟨rfl, rfl⟩

theorem Descends.after {op : Op} (h : m.Descends start) (hop : m.After op m') :
    m'.Descends start :=
  h.of_same hop.written.grows hop.routines.2 hop.routines.1

theorem Descends.enter (h : m.Descends start) (hg : start.Guarded) (address : UInt32)
    (args : List UInt32) : (m.enter address args).2.Descends start := by
  have hdescends := h.routineAt hg address
  have hentry := m.enter_entry address args
  generalize m.enter address args = q at hentry
  cases hentry with
  | full => exact h.of_same (.refl _) rfl rfl
  | unread hdepth hat =>
    rw [hat] at hdescends
    exact hdescends
  | enters hdepth hat stack f =>
    rw [hat] at hdescends
    exact hdescends.of_same (.refl _) rfl rfl
  | declines hdepth hat hpointer f =>
    rw [hat] at hdescends
    exact hdescends.of_same (.refl _) rfl rfl

/-- **Runs read from read-only memory what was there at the start.** -/
theorem upheld_descends (hg : start.Guarded) :
    Machine.Upheld fun m m' => m.Descends start → m'.Descends start where
  refl m := id
  trans h h' := h' ∘ h
  after hop h := h.after hop
  enter m address args h := h.enter hg address args
  leave m h := by
    obtain ⟨frames, stack, hleave⟩ := m.leave_changes
    rw [hleave]
    exact h.of_same (.refl _) rfl rfl
  record m e h := h.of_same (.refl _) rfl rfl

theorem Descends.start? (h : m.Descends start) (hg : start.Guarded) {request : Request σ}
    {r : Run σ} (hr : m.start? request = some r) : r.machine.Descends start := by
  unfold Machine.start? at hr
  split at hr
  · next address args =>
    have hentered := h.enter hg address args
    split at hr
    · cases hr
    · split at hr
      · next routine entered henter =>
        cases hr
        rw [henter] at hentered
        exact hentered
      · cases hr
  · cases hr
    exact h
  · cases hr

end Machine

/-- A call for which the machine gets a routine in read-only memory, if it gets one. -/
theorem Call.upToDate {start : Machine σ} {c : Call σ} (hc : c.machine.Descends start)
    (hg : start.Guarded) (hrom : c.obtains = true → start.inRom c.address = true) :
    Lockstep.bare.Admits c := by
  intro hdepth r hr
  have hat := Machine.routineAt_of_cached hr
  have hobtains : c.obtains = true := by
    unfold Call.obtains
    rw [hat, decide_eq_true hdepth]
    rfl
  exact hc.upToDate hg (hrom hobtains) r hr

section Requests

variable [Host σ] {start : Machine σ}

theorem Request.Does.descends {m m' : Machine σ} {request : Request σ}
    (h : Request.Does m request m') (hg : start.Guarded) (hm : m.Descends start) :
    m'.Descends start := by
  cases h with
  | call hcall => exact (Machine.upheld_descends hg).call hcall hm
  | evaluate heval => exact (Machine.upheld_descends hg).evaluate heval hm
  | routine address => exact hm.routineAt hg address
  | memory hr hmemory => exact hm.of_same hmemory.grows rfl rfl
  | rest hr stack host => exact hm.of_same (.refl _) rfl rfl
  | halt => exact hm.after .halt

/-! ## Calls of routines in read-only memory -/

theorem Run.machine_of_call? {r : Run σ} {c : Call σ} (h : r.call? = some c) :
    ∃ op, r.machine.After op c.machine := by
  unfold Run.call? at h
  split at h
  · cases h
  · next op hop =>
    have hdoes := op.exec_does { r.current with pc := r.current.pc + 1 } r.machine
    split at h
    · next address args a m hexec =>
      cases h
      rw [hexec] at hdoes
      exact ⟨op, hdoes.machine⟩
    · cases h

/-- A machine that has forgotten all routines is up to date. -/
theorem Run.upToDate_forget {r : Run σ} {c : Call σ}
    (h : Run.call? { r with machine := r.machine.forget } = some c) : Lockstep.bare.Admits c := by
  obtain ⟨op, hop⟩ := Run.machine_of_call? h
  intro _ routine hget
  rw [hop.routines.1] at hget
  cases hget

/-- **Runs on machines with the same bare part end alike**, if the one machine gets its routines from
read-only memory and the other reads them afresh. -/
theorem Run.finishAfresh_bare (hg : start.Guarded) {fuel : Nat} {m m' : Machine σ}
    (h : m.bare = m'.bare) (hm : m.Descends start) {a : Activation} {suspended : List Activation}
    (hrom : ∀ c ∈ Run.calls fuel ⟨m, a, suspended⟩, c.obtains = true →
      start.inRom c.address = true) :
    (finishAfresh fuel ⟨m', a, suspended⟩).map (Prod.map id Machine.bare) =
      (finish fuel ⟨m, a, suspended⟩).map (Prod.map id Machine.bare) := by
  -- The machines stay alike step by step, and all along the first one descends from the start.
  induction fuel generalizing m m' a suspended with
  | zero => rfl
  | succ fuel ih =>
    unfold Run.calls at hrom
    unfold Run.finishAfresh Run.finish
    have hcall : ∀ c, Run.call? ⟨m, a, suspended⟩ = some c → Lockstep.bare.Admits c := by
      intro c hc
      obtain ⟨op, hop⟩ := Run.machine_of_call? hc
      refine Call.upToDate (hm.after hop) hg (hrom c (List.mem_append_left _ ?_))
      rw [hc]
      exact List.mem_singleton_self c
    have halike : Lockstep.bare.Like m m'.forget := h
    have hstep := Lockstep.bare.step halike a suspended hcall fun c hc =>
      Run.upToDate_forget (r := ⟨m', a, suspended⟩) hc
    have hnext := (Machine.upheld_descends hg).step ⟨m, a, suspended⟩ hm
    dsimp only
    generalize Run.step ⟨m'.forget, a, suspended⟩ = p' at hstep ⊢
    generalize Run.step ⟨m, a, suspended⟩ = p at hstep hnext hrom ⊢
    cases hstep with
    | running a suspended hm₁ => exact ih hm₁ hnext fun c hc => hrom c (List.mem_append_right _ hc)
    | finished result hm₁ => exact congrArg (fun m => some (result, m)) hm₁.symm
    | excused hf => exact hf.elim

namespace Machine

variable {m m' : Machine σ} {fuel : Nat}

theorem runFromAfresh_bare (hg : start.Guarded) (h : m.bare = m'.bare) (hm : m.Descends start)
    {base : Nat} {a : Activation}
    (hrom : ∀ c ∈ Run.calls fuel ⟨m, a, []⟩, c.obtains = true → start.inRom c.address = true) :
    (m'.runFromAfresh fuel base a).map (Prod.map id bare) =
      (m.runFrom fuel base a).map (Prod.map id bare) := by
  have hfinish := Run.finishAfresh_bare hg h hm hrom
  unfold runFromAfresh runFrom
  generalize Run.finishAfresh fuel ⟨m', a, []⟩ = o' at hfinish ⊢
  generalize Run.finish fuel ⟨m, a, []⟩ = o at hfinish ⊢
  cases o with
  | none =>
    rw [Option.map_eq_none_iff.mp hfinish]
  | some p =>
    obtain ⟨⟨result, last'⟩, rfl, heq⟩ := Option.map_eq_some_iff.mp hfinish
    obtain ⟨hresult, hlast⟩ := Prod.mk.inj heq
    obtain rfl : result = p.1 := hresult
    have hhalted : last'.halted = p.2.halted := congrArg (·.halted) hlast
    obtain ⟨hanswer, hsettled⟩ :=
      Lockstep.bare.settle hlast.symm hhalted base (fun _ => False.elim) p.1
    exact congrArg some (Prod.ext hanswer hsettled.symm)

theorem callAfresh_bare (hg : start.Guarded) (h : m.bare = m'.bare) (hm : m.Descends start)
    {address : UInt32} {args : List UInt32}
    (hrom : ∀ c ∈ m.calls fuel (.call address args), c.obtains = true →
      start.inRom c.address = true) :
    (m'.callAfresh fuel address args).map (Prod.map id bare) =
      (m.call fuel address args).map (Prod.map id bare) := by
  have hhalted : m.halted = m'.halted := congrArg (·.halted) h
  have hdepth : m.depth = m'.depth := congrArg (·.depth) h
  unfold calls start? at hrom
  dsimp only at hrom
  unfold callAfresh call
  rw [hhalted] at hrom ⊢
  split
  · exact congrArg (fun m => some (Except.ok (ε := Fault) (0 : UInt32), m)) h.symm
  · next hrunning =>
    rw [if_neg hrunning, if_neg hrunning] at hrom
    have hcall : Lockstep.bare.Admits ⟨m, address, args⟩ :=
      Call.upToDate hm hg (hrom _ (List.mem_append_left _ (List.mem_singleton_self _)))
    have halike : Lockstep.bare.Like m m'.forget := h
    have henter := Lockstep.bare.enter halike address args hcall fun _ r hr => nomatch hr
    have hentered := hm.enter hg address args
    generalize m'.forget.enter address args = p' at henter ⊢
    generalize m.enter address args = p at henter hentered hrom ⊢
    cases henter with
    | excused hf => exact hf.elim
    | @same x m₁ m₁' hm₁ =>
      cases x with
      | error f => exact congrArg (fun m => some (Except.error (α := UInt32) f, m)) hm₁.symm
      | ok routine =>
        dsimp only
        rw [hdepth]
        exact runFromAfresh_bare hg hm₁ hentered fun c hc => hrom c (List.mem_append_right _ hc)

/-- **Requests do alike**, if the one machine gets its routines from read-only memory and the other
reads them afresh. -/
theorem performAfresh_bare (hg : start.Guarded) (h : m.bare = m'.bare) (hm : m.Descends start)
    {request : Request σ} (hrom : ∀ a ∈ m.obtained fuel request, start.inRom a = true) :
    (m'.performAfresh fuel request).map (Prod.map id bare) =
      (m.perform fuel request).map (Prod.map id bare) := by
  have hanswer : ∀ {x x' : Option (Except Fault UInt32 × Machine σ)},
      x'.map (Prod.map id bare) = x.map (Prod.map id bare) →
      (x'.map fun p => (p.1.map Answer.value, p.2)).map (Prod.map id bare) =
        (x.map fun p => (p.1.map Answer.value, p.2)).map (Prod.map id bare) := by
    intro x x' hx
    have hcomm : (Prod.map id bare ∘ fun p : Except Fault UInt32 × Machine σ =>
        (p.1.map Answer.value, p.2)) = (fun p => (p.1.map Answer.value, p.2)) ∘ Prod.map id bare :=
      rfl
    rw [Option.map_map, Option.map_map, hcomm, ← Option.map_map, ← Option.map_map, hx]
  have hcalls : (∀ address, request ≠ .routine address) →
      ∀ c ∈ m.calls fuel request, c.obtains = true → start.inRom c.address = true := by
    intro hne c hc hobtains
    refine hrom c.address ?_
    have hmem := List.mem_map_of_mem (f := Call.address) (List.mem_filter.mpr ⟨hc, hobtains⟩)
    cases request with
    | routine address => exact absurd rfl (hne address)
    | _ => exact hmem
  have hrest : request.isRun = false →
      (m'.forget.perform fuel request).map (Prod.map id bare) =
        (m.perform fuel request).map (Prod.map id bare) := by
    intro hr
    have hready : ∀ address, request = .routine address → m.UpToDate address := by
      intro address heq r hget
      have hat : m.routineAt address = (.ok r, m) := routineAt_of_cached hget
      refine hm.upToDate hg (hrom address ?_) r hget
      rw [heq, obtained, hat]
      exact List.mem_singleton_self address
    have halike : Lockstep.bare.Like m m'.forget := h
    obtain ⟨q, q', hq, hq', hagree⟩ := Lockstep.bare.perform halike hr
      (fun address heq => ⟨hready address heq, fun r hget => nomatch hget⟩) fuel
    obtain ⟨hanswer, hbare⟩ := hagree.resolve fun _ _ => id
    rw [hq, hq']
    exact congrArg some (Prod.ext hanswer hbare.symm)
  cases request with
  | call address args => exact hanswer (callAfresh_bare hg h hm (hcalls nofun))
  | evaluate e =>
    have hdepth : m.depth = m'.depth := congrArg (·.depth) h
    refine hanswer ?_
    rw [← hdepth]
    exact runFromAfresh_bare hg h hm fun c hc => hcalls nofun c (List.mem_append_right _ hc)
  | _ => exact hrest rfl

/-- **Requests in sequence do alike**, if the one machine gets its routines from read-only memory and
the other reads them afresh. -/
theorem performAllAfresh_bare (hg : start.Guarded) {requests : List (Request σ)}
    (h : m.bare = m'.bare) (hm : m.Descends start)
    (hrom : ∀ q ∈ stages fuel requests m, ∀ a ∈ q.1.obtained fuel q.2, start.inRom a = true) :
    (performAllAfresh fuel requests m').map (Prod.map id bare) =
      (performAll fuel requests m).map (Prod.map id bare) := by
  induction requests generalizing m m' with
  | nil => exact congrArg (fun m => some (([] : List (Except Fault Answer)), m)) h.symm
  | cons request rest ih =>
    unfold stages at hrom
    unfold performAllAfresh performAll
    have hperform := performAfresh_bare hg h hm (hrom _ List.mem_cons_self)
    cases hp : m.perform fuel request with
    | none =>
      rw [hp] at hperform
      rw [Option.map_eq_none_iff.mp hperform]
      rfl
    | some p =>
      obtain ⟨answer, m₁⟩ := p
      rw [hp] at hperform hrom
      obtain ⟨⟨answer', m₁'⟩, hp', heq⟩ := Option.map_eq_some_iff.mp hperform
      obtain ⟨rfl, hm₁⟩ := Prod.mk.inj heq
      rw [hp']
      have hrest := ih hm₁.symm ((perform_does hp).descends hg hm) fun q hq =>
        hrom q (List.mem_cons_of_mem _ hq)
      have hcons : ∀ x : Option (List (Except Fault Answer) × Machine σ),
          (x >>= fun p => some (answer' :: p.1, p.2)).map (Prod.map id bare) =
            (x.map (Prod.map id bare)).map (Prod.map (answer' :: ·) id) := by
        intro x
        cases x <;> rfl
      calc
        _ = _ := hcons (performAllAfresh fuel rest m₁')
        _ = _ := congrArg _ hrest
        _ = _ := (hcons (performAll fuel rest m₁)).symm

end Machine

namespace Machine

variable {m m' : Machine σ} {fuel : Nat} {requests : List (Request σ)}

theorem Descends.stages (h : m.Descends start) (hg : start.Guarded) {q : Machine σ × Request σ}
    (hq : q ∈ stages fuel requests m) : q.1.Descends start := by
  induction requests generalizing m with
  | nil => cases hq
  | cons request rest ih =>
    unfold Machine.stages at hq
    cases hq with
    | head => exact h
    | tail _ hq =>
      cases hp : m.perform fuel request with
      | none =>
        rw [hp] at hq
        cases hq
      | some p =>
        rw [hp] at hq
        exact ih ((perform_does hp).descends hg h) hq

theorem Visits.descends (hv : Visits fuel requests m m') (hg : start.Guarded)
    (h : m.Descends start) : m'.Descends start := by
  cases hv with
  | before hq => exact h.stages hg hq
  | during hq hr n =>
    exact (upheld_descends hg).run _ n (Descends.start? (h.stages hg hq) hg hr)
  | after hall => exact performAll_induction (fun hdoes hm => hdoes.descends hg hm) hall h

end Machine

end Requests

/-! ## Stories -/

theorem Story.guarded {image : Array UInt8} {host : σ} {limits : Limits} {s : Story σ}
    (h : load image host limits = .ok s) : s.machine.Guarded := by
  obtain ⟨-, hramStart, hsize⟩ := load_ok h
  refine ⟨hsize ▸ s.header.endMem.toNat_lt, fun i hi => ?_⟩
  rw [hramStart] at hi
  exact rom_protected h hi

/-- A loaded story has read one routine, from memory as it is. -/
theorem Story.descends {image : Array UInt8} {host : σ} {limits : Limits} {s : Story σ}
    (h : load image host limits = .ok s) : s.machine.Descends s.machine := by
  obtain ⟨m, -, -, hempty, hread⟩ := load_reads h
  obtain ⟨routines, trace, hat⟩ := m.routineAt_changes s.header.startFunc
  have hm : m.Descends s.machine := by
    rw [hread] at hat
    dsimp only at hat
    rw [hat]
    refine ⟨.refl _, rfl, fun a r hget => ?_⟩
    rw [hempty] at hget
    cases hget
  have hs := hm.routineAt (guarded h) s.header.startFunc
  rw [hread] at hs
  exact hs

/-- **It makes no difference that routines are kept**, as long as they lie in read-only memory. Take
any requests to the machine of a loaded story: calls and evaluations, with writes to memory and
whatever else in between. If all routines that the machine gets for them lie below the start of
writable memory, then a machine that reads each routine again for each call gives the same answers
and ends in the same state, but for the routines read and the events. And at every point, between
requests and during their runs, each routine of that kind that has been read is what memory has at
its address. -/
theorem cache_unobservable [Host σ] {image : Array UInt8} {host : σ} {limits : Limits} {s : Story σ}
    (hload : Story.load image host limits = .ok s) {fuel : Nat} {requests : List (Request σ)}
    (hrom : ∀ q ∈ Machine.stages fuel requests s.machine, ∀ a ∈ q.1.obtained fuel q.2,
      s.machine.inRom a = true) :
    (Machine.performAllAfresh fuel requests s.machine).map (Prod.map id Machine.bare) =
      (Machine.performAll fuel requests s.machine).map (Prod.map id Machine.bare) ∧
    ∀ m, Machine.Visits fuel requests s.machine m → ∀ (a : UInt32) r, m.routines[a]? = some r →
      s.machine.inRom a = true → Routine.decode m.memory a m.ramStart = .ok r := by
  have hg := Story.guarded hload
  have hs := Story.descends hload
  refine ⟨Machine.performAllAfresh_bare hg rfl hs hrom, fun m hm a r hget ha => ?_⟩
  exact (hm.descends hg hs).upToDate hg ha r hget

/-- Calls of the routine that `touching` starts with, and writes to memory between them. -/
def rewriting : List (Request Silent) :=
  [.call 0x24 [], .write .byte 0x30 7, .call 0x24 [], .write .byte 0x34 7, .call 0x24 []]

theorem cache_unobservable_touching :
    ∃ (s : Story Silent) (m : Machine Silent), Story.load touching {} {} = .ok s ∧
      m.memory.bytes[0x30]? = some 9 ∧ m.memory.bytes[0x34]? = some 7 ∧
      (Machine.performAllAfresh 10 rewriting s.machine).map (Prod.map id Machine.bare) =
        some ([.ok (.value 0), .ok .done, .ok (.value 0), .ok .done, .ok (.value 0)], m.bare) ∧
      Routine.decode m.memory 0x24 m.ramStart = .ok s.start := by
  obtain ⟨s, hload, hrom, hstart, hall, hbytes⟩ := Story.exists_loaded touching ({} : Silent) {}
    (fun s => (Machine.stages 10 rewriting s.machine).all
        (fun q => (q.1.obtained 10 q.2).all s.machine.inRom) = true ∧
      s.machine.inRom 0x24 = true ∧
      (Machine.performAll 10 rewriting s.machine).map
          (fun q => (q.1, q.2.routines[(0x24 : UInt32)]?)) =
        some ([.ok (.value 0), .ok .done, .ok (.value 0), .ok .done, .ok (.value 0)],
          some s.start) ∧
      (Machine.performAll 10 rewriting s.machine).map
        (fun q => (q.2.memory.bytes[0x30]?, q.2.memory.bytes[0x34]?)) = some (some 9, some 7))
    (by decide +kernel)
  obtain ⟨⟨answers, m⟩, hall, heq⟩ := Option.map_eq_some_iff.mp hall
  obtain ⟨rfl, hcached⟩ := Prod.mk.inj heq
  rw [hall] at hbytes
  obtain ⟨htouched, hwritten⟩ := Prod.mk.inj (Option.some.inj hbytes)
  obtain ⟨hafresh, hvisits⟩ := cache_unobservable hload fun q hq =>
    List.all_eq_true.mp (List.all_eq_true.mp hrom q hq)
  rw [hall] at hafresh
  have hread := hvisits m (.after hall) 0x24 s.start hcached hstart
  exact ⟨s, m, hload, htouched, hwritten, hafresh, hread⟩

/-- Calls of a routine in writable memory that gets its arguments on the stack, for which there is no
room, before and after its type byte is overwritten. -/
def outgrowing : List (Request Silent) := [.call 0x30 [], .call 0x24 [], .call 0x30 []]

/-- **Routines that are read but not entered** are kept, too. Here all routines that are entered lie
in read-only memory, and yet the machine that has kept another one gives another answer than the
machine that reads it again. -/
theorem cache_observable :
    ∃ s : Story Silent, Story.load touching {} {} = .ok s ∧
      (∀ q ∈ Machine.stages 10 outgrowing s.machine, ∀ a ∈ q.1.entered 10 q.2,
        s.machine.inRom a = true) ∧
      (Machine.performAll 10 outgrowing s.machine).map (·.1) =
        some [.error (.stackOverflow 0 4 0), .ok (.value 0), .error (.stackOverflow 0 4 0)] ∧
      (Machine.performAllAfresh 10 outgrowing s.machine).map (·.1) =
        some [.error (.stackOverflow 0 4 0), .ok (.value 0),
          .error (.decode 0x30 (.notARoutine 9))] := by
  obtain ⟨s, hload, hrom, hanswers⟩ := Story.exists_loaded touching ({} : Silent) {}
    (fun s => (Machine.stages 10 outgrowing s.machine).all
        (fun q => (q.1.entered 10 q.2).all s.machine.inRom) = true ∧
      (Machine.performAll 10 outgrowing s.machine).map (·.1) =
        some [.error (.stackOverflow 0 4 0), .ok (.value 0), .error (.stackOverflow 0 4 0)] ∧
      (Machine.performAllAfresh 10 outgrowing s.machine).map (·.1) =
        some [.error (.stackOverflow 0 4 0), .ok (.value 0),
          .error (.decode 0x30 (.notARoutine 9))])
    (by decide +kernel)
  exact ⟨s, hload, fun q hq => List.all_eq_true.mp (List.all_eq_true.mp hrom q hq), hanswers⟩

end StoryVM
