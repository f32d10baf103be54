import StoryVM.Proofs.Balance

/-! # Depth and stack pointer across calls

A call gives back the call depth and the stack pointer that it found, whatever happens in it: on a
return, on a fault at any depth, and after a halt (`call_level`). Nothing is asked of the machine
for that, neither of its frames nor of the routines it has read.

* `Machine.pointerAt`: the stack pointer that leaving all routines above a depth comes to. Entering
  and leaving routines above that depth do not change it.
* `Run.Level`: what holds all along a run. There are as many frames above the depth where it began
  as there are activations that own one, and they can be left.
* `Run.Level.step`, `Progress.Level.after`: steps and runs stay level.
* `Machine.EndsLevel.settle`: settling a run brings it back to where it began. -/

namespace StoryVM

variable {σ : Type}

/-! ## The stack pointer below the frames -/

namespace Machine

/-- **The stack pointer once all routines above a depth are left**: the base of the lowest of their
frames, or the pointer as it is if there is none. -/
def pointerAt (m : Machine σ) (base : Nat) : Nat :=
  (m.frames[base]?.map Frame.base).getD m.stack.pointer

variable {base : Nat} {m m' : Machine σ}

theorem pointerAt_depth (m : Machine σ) : m.pointerAt m.depth = m.stack.pointer := by
  simp [pointerAt, depth]

theorem pointerAt_of_lt {f : Frame} (hf : m.frames[base]? = some f) :
    m.pointerAt base = f.base := by
  rw [pointerAt, hf]
  rfl

theorem exists_frame (hd : base < m.depth) : ∃ f, m.frames[base]? = some f :=
  ⟨_, Array.getElem?_eq_getElem hd⟩

theorem Keeps.pointerAt {halts : Bool} (hk : Keeps halts m m') (hd : base < m.depth) :
    m'.pointerAt base = m.pointerAt base := by
  have hd' : base < m'.depth := by rwa [hk.depth]
  obtain ⟨f, hf⟩ := exists_frame hd'
  obtain ⟨g, hg, hbase⟩ := hk.frame hf
  rw [pointerAt_of_lt hf, pointerAt_of_lt hg, hbase]

/-- A frame on top whose base is the stack pointer below it does not change what is below. -/
theorem pointerAt_of_push {f : Frame} (hframes : m.frames = m'.frames.push f)
    (hp : m'.stack.pointer = f.base) (hd : base < m.depth) :
    m'.pointerAt base = m.pointerAt base := by
  have hsize : m.depth = m'.depth + 1 := by simp [depth, hframes]
  -- The frame on top is the lowest above the depth, or another one is.
  rcases Nat.lt_or_eq_of_le (show base ≤ m'.depth by omega) with hlt | rfl
  · obtain ⟨g, hg⟩ := exists_frame hlt
    have hg' : m.frames[base]? = some g := by
      rw [hframes, Array.getElem?_push, if_neg (show base ≠ m'.frames.size from Nat.ne_of_lt hlt)]
      exact hg
    rw [pointerAt_of_lt hg, pointerAt_of_lt hg']
  · have hf : m.frames[m'.depth]? = some f := by
      rw [hframes]
      exact Array.getElem?_push_size
    rw [pointerAt_of_lt hf, pointerAt_depth, hp]

theorem Entered.pointerAt {r : Routine} (he : m.Entered r m') (hd : base ≤ m.depth) :
    m'.pointerAt base = m.pointerAt base := by
  obtain ⟨f, hframes, hshape⟩ := he.frames
  have hbase : f.base = m.stack.pointer := congrArg Prod.fst hshape
  have hsize : m'.depth = m.depth + 1 := by simp [depth, hframes]
  exact (pointerAt_of_push hframes hbase.symm (by omega)).symm

/-- **Unwinding** to a depth comes to it, with the stack pointer that belongs to it. -/
theorem LeavableFrom.unwind_level {n : Nat} (h : m.LeavableFrom base) (hn : m.depth = base + n) :
    (m.unwind n).depth = base ∧ (m.unwind n).stack.pointer = m.pointerAt base := by
  induction n generalizing m with
  | zero =>
    obtain rfl : m.depth = base := hn
    exact ⟨rfl, m.pointerAt_depth.symm⟩
  | succ n ih =>
    have hlt : base < m.depth := by omega
    obtain ⟨m', f, hleave, hframes, hp, hm'⟩ := h.leave hlt
    have hsize : m.depth = m'.depth + 1 := by simp [depth, hframes]
    rw [Machine.unwind, hleave, ← pointerAt_of_push hframes hp hlt]
    exact ih hm' (by omega)

end Machine

/-! ## Level runs -/

/-- **The number of routines that are running**: the activations of the run that own a frame. -/
def Run.live (r : Run σ) : Nat := (r.current :: r.suspended).countP (·.routine.isSome)

/-- **A level run**, which began on a machine. If it began with a call, all its activations own a
frame, and leaving all of them gives the stack pointer back. -/
structure Run.Level (r : Run σ) (isCall : Prop) (start : Machine σ) : Prop where
  depth : r.machine.depth = start.depth + r.live
  leavable : r.machine.LeavableFrom start.depth
  limits : r.machine.limits = start.limits
  bound : r.machine.depth ≤ max start.depth start.limits.maxDepth
  owned : isCall → ∀ a ∈ r.current :: r.suspended, a.routine.isSome
  pointer : isCall → r.machine.pointerAt start.depth = start.stack.pointer

/-- **A run that has ended level**: all frames entered since its start can be left, and there are
none if it gives a result on a machine that is not halted. -/
structure Machine.EndsLevel (m : Machine σ) (isCall : Prop) (start : Machine σ)
    (result : Except Fault UInt32) : Prop where
  depth : start.depth ≤ m.depth
  leavable : m.LeavableFrom start.depth
  limits : m.limits = start.limits
  bound : m.depth ≤ max start.depth start.limits.maxDepth
  left : ∀ v, result = .ok v → m.halted = false → m.depth = start.depth
  pointer : isCall → m.pointerAt start.depth = start.stack.pointer

/-- The run goes on level, or has ended level. -/
def Progress.Level (p : Progress σ) (isCall : Prop) (start : Machine σ) : Prop :=
  match p with
  | running r => r.Level isCall start
  | finished result m => m.EndsLevel isCall start result

variable {isCall : Prop} {start : Machine σ} {r : Run σ}

theorem Run.live_push (m : Machine σ) (a : Activation) (rest : List Activation) (v : UInt32) :
    Run.live ⟨m, a.push v, rest⟩ = (a :: rest).countP (·.routine.isSome) := by
  simp only [Run.live, List.countP_cons]
  rfl

namespace Run.Level

theorem depth_pos (h : r.Level isCall start) (hc : isCall) : start.depth < r.machine.depth := by
  have hcurrent := h.owned hc r.current List.mem_cons_self
  have hlive : 0 < r.live := List.countP_pos_iff.mpr ⟨r.current, List.mem_cons_self, hcurrent⟩
  rw [h.depth]
  omega

/-- The run stays level when an operation changes its machine and its current activation. -/
theorem exec (h : r.Level isCall start) {m : Machine σ} (hk : Machine.Keeps false r.machine m)
    (hl : m.limits = r.machine.limits) {a : Activation} (ha : a.routine = r.current.routine) :
    Run.Level ⟨m, a, r.suspended⟩ isCall start where
  depth := by
    rw [hk.depth, h.depth]
    simp only [Run.live, List.countP_cons, ha]
  leavable := h.leavable.keeps hk
  limits := hl.trans h.limits
  bound := by
    rw [hk.depth]
    exact h.bound
  owned hc b hb := by
    rcases List.mem_cons.mp hb with rfl | hb
    · rw [ha]
      exact h.owned hc r.current List.mem_cons_self
    · exact h.owned hc b (List.mem_cons_of_mem _ hb)
  pointer hc := (hk.pointerAt (h.depth_pos hc)).trans (h.pointer hc)

/-- The run may end wherever it is, unless it gives a result. -/
theorem ends (h : r.Level isCall start) {halts : Bool} {m : Machine σ}
    (hk : Machine.Keeps halts r.machine m) (hl : m.limits = r.machine.limits)
    {result : Except Fault UInt32} (hr : ∀ v, result = .ok v → m.halted = true) :
    m.EndsLevel isCall start result where
  depth := by
    rw [hk.depth, h.depth]
    exact Nat.le_add_right _ _
  leavable := h.leavable.keeps hk
  limits := hl.trans h.limits
  bound := by
    rw [hk.depth]
    exact h.bound
  left v hv hm := by
    rw [hr v hv] at hm
    cases hm
  pointer hc := (hk.pointerAt (h.depth_pos hc)).trans (h.pointer hc)

/-- Handing a value on, once the frame of the activation before is left. -/
theorem resume {m : Machine σ} {suspended : List Activation}
    (hd : m.depth = start.depth + suspended.countP (·.routine.isSome))
    (hv : m.LeavableFrom start.depth) (hl : m.limits = start.limits)
    (hb : m.depth ≤ max start.depth start.limits.maxDepth)
    (ho : isCall → ∀ a ∈ suspended, a.routine.isSome)
    (hp : isCall → m.pointerAt start.depth = start.stack.pointer) (v : UInt32) :
    (Run.resume m suspended v).Level isCall start := by
  cases suspended with
  | nil => exact ⟨Nat.le_of_eq hd.symm, hv, hl, hb, fun _ _ _ => hd, hp⟩
  | cons caller rest =>
    refine ⟨?_, hv, hl, hb, fun hc a ha => ?_, hp⟩
    · rw [Run.live_push]
      exact hd
    · rcases List.mem_cons.mp ha with rfl | ha
      · exact ho hc caller List.mem_cons_self
      · exact ho hc a (List.mem_cons_of_mem _ ha)

/-- **Returning** leaves the frame of the current activation, if it owns one. -/
theorem returnValue (h : r.Level isCall start) {m : Machine σ}
    (hk : Machine.Keeps false r.machine m) (hl : m.limits = r.machine.limits) (v : UInt32) :
    (r.returnValue v m).Level isCall start := by
  have hm := h.exec hk hl (a := r.current) rfl
  have howned : isCall → ∀ a ∈ r.suspended, a.routine.isSome :=
    fun hc a ha => h.owned hc a (List.mem_cons_of_mem _ ha)
  have hdepth : m.depth = start.depth + (r.current :: r.suspended).countP (·.routine.isSome) :=
    hm.depth
  have hleavable : m.LeavableFrom start.depth := hm.leavable
  have hstart : m.limits = start.limits := hm.limits
  have hroom : m.depth ≤ max start.depth start.limits.maxDepth := hm.bound
  rw [List.countP_cons] at hdepth
  unfold Run.returnValue
  cases hroutine : r.current.routine with
  | none =>
    rw [hroutine] at hdepth
    exact resume hdepth hleavable hstart hroom howned hm.pointer v
  | some address =>
    rw [hroutine, Option.isSome_some, if_pos rfl] at hdepth
    have hlt : start.depth < m.depth := by omega
    obtain ⟨m', f, hleave, hframes, hp, hm'⟩ := hleavable.leave hlt
    have hsize : m.depth = m'.depth + 1 := by simp [Machine.depth, hframes]
    have hlimits : m'.limits = start.limits := by
      obtain ⟨frames, stack, hchange⟩ := m.leave_changes
      rw [hleave] at hchange
      exact (congrArg Machine.limits hchange).trans hstart
    have hbound : m'.depth ≤ max start.depth start.limits.maxDepth :=
      by omega
    have hkr := m'.keeps_record (.left address v)
    simp only [hleave]
    refine resume ?_ (hm'.keeps hkr) hlimits hbound howned (fun hc => ?_) v
    · rw [hkr.depth]
      omega
    · exact (Machine.pointerAt_of_push hframes hp hlt).trans (hm.pointer hc)

/-- **Calling** adds an activation and its frame, if there is room for it. -/
theorem callRoutine (h : r.Level isCall start) {m : Machine σ}
    (hk : Machine.Keeps false r.machine m) (hl : m.limits = r.machine.limits) {caller : Activation}
    (ha : caller.routine = r.current.routine) (address : UInt32) (args : List UInt32) :
    (r.callRoutine address args caller m).Level isCall start := by
  have hm := h.exec hk hl ha
  obtain ⟨hok, herr⟩ := m.enter_spec address args
  unfold Run.callRoutine
  split
  · next f m' henter =>
    have hk' := herr f m' henter
    obtain ⟨routines, stack, trace, rfl, -⟩ := Machine.enter_error henter
    exact hm.ends hk' rfl (by rintro _ ⟨⟩)
  · next routine m' henter =>
    have he := hok routine m' henter
    obtain ⟨hroom, routines, stack, f, trace, hm'⟩ := Machine.enter_ok henter
    have hsize : m'.depth = m.depth + 1 := by simp [Machine.depth, hm']
    have hdepth : m.depth = start.depth + Run.live ⟨m, caller, r.suspended⟩ := hm.depth
    refine ⟨?_, hm.leavable.entered he, ?_, ?_, fun hc a ha => ?_, fun hc => ?_⟩
    · rw [hsize, hdepth, Nat.add_assoc]
      simp [Run.live, Activation.ofRoutine, List.countP_cons]
    · rw [hm']
      exact hm.limits
    · have hlimits : m.limits = start.limits := hm.limits
      rw [hlimits] at hroom
      rw [hsize]
      exact Nat.le_trans hroom (Nat.le_max_right _ _)
    · rcases List.mem_cons.mp ha with rfl | ha
      · rfl
      · exact hm.owned hc a ha
    · exact (he.pointerAt (Nat.le_of_lt (hm.depth_pos hc))).trans (hm.pointer hc)

variable [Host σ]

/-- **Steps stay level.** -/
theorem step (h : r.Level isCall start) : r.step.Level isCall start := by
  cases hop : r.current.program.ops[r.current.pc]? with
  | none =>
    rw [Run.step, hop]
    exact h.returnValue (.refl _) rfl 0
  | some op =>
    rw [Run.step_of_fetch hop]
    have hk := op.exec_keeps { r.current with pc := r.current.pc + 1 } r.machine
    have hl := (op.exec_does { r.current with pc := r.current.pc + 1 } r.machine).machine.limits
    generalize op.exec { r.current with pc := r.current.pc + 1 } r.machine = t at hk hl ⊢
    cases t with
    | next a m => exact h.exec hk.2 hl hk.1
    | call address args a m => exact h.callRoutine hk.2 hl hk.1 address args
    | ret v m => exact h.returnValue hk hl v
    | halt m =>
      show m.EndsLevel isCall start (.ok 0)
      refine h.ends hk hl fun _ _ => ?_
      rw [hk.halted, Bool.or_true]
    | fault f m => exact h.ends hk hl (by rintro _ ⟨⟩)

end Run.Level

section Runs

variable [Host σ]

/-- **Runs stay level.** -/
theorem Progress.Level.after {p : Progress σ} (h : p.Level isCall start) (n : Nat) :
    (p.after n).Level isCall start := by
  induction n generalizing p with
  | zero => exact h
  | succ n ih =>
    cases p with
    | running r => exact ih (Run.Level.step h)
    | finished result m => exact h

end Runs

/-- **Settling a run** brings it back to the depth where it began, and to the stack pointer if it
began with a call. -/
theorem Machine.EndsLevel.settle {result : Except Fault UInt32} {m : Machine σ}
    (h : m.EndsLevel isCall start result) :
    (m.settle start.depth result).2.depth = start.depth ∧
      (isCall → (m.settle start.depth result).2.stack.pointer = start.stack.pointer) := by
  have hunwind : (m.unwind (m.depth - start.depth)).depth = start.depth ∧
      (isCall → (m.unwind (m.depth - start.depth)).stack.pointer = start.stack.pointer) := by
    have hd := h.depth
    obtain ⟨hdepth, hpointer⟩ := h.leavable.unwind_level (n := m.depth - start.depth) (by omega)
    exact ⟨hdepth, fun hc => hpointer.trans (h.pointer hc)⟩
  unfold Machine.settle
  split
  · exact hunwind
  · next v =>
    split
    · exact hunwind
    · next hhalted =>
      have hdepth := h.left v rfl (by simpa using hhalted)
      refine ⟨hdepth, fun hc => ?_⟩
      have hpointer := h.pointer hc
      rwa [← hdepth, m.pointerAt_depth] at hpointer

/-- The machine that a run has come to. -/
def Progress.machine : Progress σ → Machine σ
  | running r => r.machine
  | finished _ m => m

theorem Progress.Level.bound {p : Progress σ} (h : p.Level isCall start) :
    p.machine.depth ≤ max start.depth start.limits.maxDepth := by
  cases p with
  | running r => exact Run.Level.bound h
  | finished result m => exact Machine.EndsLevel.bound h

/-! ## Calls and evaluations -/

/-- The run of a routine that was just entered is level. -/
theorem Machine.level_of_enter {m m₁ : Machine σ} {routine : Routine} {address : UInt32}
    {args : List UInt32} (h : m.enter address args = (.ok routine, m₁)) :
    Run.Level ⟨m₁, .ofRoutine routine address, []⟩ True m := by
  have he := (m.enter_spec address args).1 routine m₁ h
  obtain ⟨hroom, routines, stack, f, trace, hm₁⟩ := Machine.enter_ok h
  have hnone : m.LeavableFrom m.depth := by
    intro i f hi hf
    exact absurd (Array.getElem?_eq_some_iff.mp hf).1 (Nat.not_lt.mpr hi)
  have hsize : m₁.depth = m.depth + 1 := by simp [Machine.depth, hm₁]
  refine ⟨hsize, hnone.entered he, by rw [hm₁], ?_, fun _ a ha => ?_, fun _ => ?_⟩
  · exact hsize ▸ Nat.le_trans hroom (Nat.le_max_right _ _)
  · obtain rfl := List.mem_singleton.mp ha
    rfl
  · rw [he.pointerAt (Nat.le_refl m.depth), m.pointerAt_depth]

/-- The run of an expression is level at its start. -/
theorem Machine.level_of_expr (m : Machine σ) (e : Expr) :
    Run.Level ⟨m, { program := Program.ofExpr e }, []⟩ False m := by
  refine ⟨rfl, ?_, rfl, Nat.le_max_left _ _, False.elim, False.elim⟩
  intro i f hi hf
  exact absurd (Array.getElem?_eq_some_iff.mp hf).1 (Nat.not_lt.mpr hi)

variable [Host σ]

theorem Run.Level.finish (h : r.Level isCall start) {fuel : Nat} {result : Except Fault UInt32}
    {m : Machine σ} (hfinish : r.finish fuel = some (result, m)) :
    m.EndsLevel isCall start result := by
  have hlevel : (Progress.running r).Level isCall start := h
  have hafter := hlevel.after fuel
  rwa [Run.after_of_finish hfinish] at hafter

/-- **What a level run settles to.** -/
theorem Run.Level.runFrom {m : Machine σ} {a : Activation} (h : Run.Level ⟨m, a, []⟩ isCall start)
    {fuel : Nat} {result : Except Fault UInt32} {m' : Machine σ}
    (hrun : m.runFrom fuel start.depth a = some (result, m')) :
    m'.depth = start.depth ∧ (isCall → m'.stack.pointer = start.stack.pointer) := by
  obtain ⟨⟨ended, last⟩, hfinish, hsettle⟩ := Option.map_eq_some_iff.mp hrun
  have hsettled := (h.finish hfinish).settle
  rwa [hsettle] at hsettled

/-- **Calls are balanced.** On every machine, a call of any routine with any arguments gives back
the call depth and the stack pointer that it found, whatever it comes to. All along its run there
are as many frames as before the call and one for each routine that is running, and there are never
more than before or than the limit allows. An evaluation gives back the call depth, and the same is
true all along its run. -/
theorem call_level (m : Machine σ) :
    (∀ address args fuel result m', m.call fuel address args = some (result, m') →
      m'.depth = m.depth ∧ m'.stack.pointer = m.stack.pointer) ∧
    (∀ address args routine entered, m.enter address args = (.ok routine, entered) → ∀ n,
      (∀ r, (Progress.running ⟨entered, .ofRoutine routine address, []⟩).after n = .running r →
        r.machine.depth = m.depth + r.live) ∧
      ((Progress.running ⟨entered, .ofRoutine routine address, []⟩).after n).machine.depth ≤
        max m.depth m.limits.maxDepth) ∧
    (∀ e fuel result m', m.evaluate fuel e = some (result, m') → m'.depth = m.depth) ∧
    ∀ e n,
      (∀ r, (Progress.running ⟨m, { program := Program.ofExpr e }, []⟩).after n = .running r →
        r.machine.depth = m.depth + r.live) ∧
      ((Progress.running ⟨m, { program := Program.ofExpr e }, []⟩).after n).machine.depth ≤
        max m.depth m.limits.maxDepth := by
  have hrun : ∀ {isCall} {r : Run σ}, r.Level isCall m → ∀ n,
      (∀ r', (Progress.running r).after n = .running r' → r'.machine.depth = m.depth + r'.live) ∧
      ((Progress.running r).after n).machine.depth ≤ max m.depth m.limits.maxDepth := by
    intro isCall r h n
    have hlevel : (Progress.running r).Level isCall m := h
    refine ⟨fun r' hr' => ?_, (hlevel.after n).bound⟩
    have hafter := hlevel.after n
    rw [hr'] at hafter
    exact Run.Level.depth hafter
  refine ⟨fun address args fuel result m' hcall => ?_, fun address args routine entered henter n =>
    hrun (Machine.level_of_enter henter) n, fun e fuel result m' heval => ?_,
    fun e n => hrun (m.level_of_expr e) n⟩
  · unfold Machine.call at hcall
    split at hcall
    · cases hcall
      exact ⟨rfl, rfl⟩
    · split at hcall
      · next f m₁ henter =>
        cases hcall
        obtain ⟨routines, stack, trace, rfl, hpointer⟩ := Machine.enter_error henter
        exact ⟨rfl, hpointer⟩
      · next routine m₁ henter =>
        obtain ⟨hdepth, hpointer⟩ := (Machine.level_of_enter henter).runFrom hcall
        exact ⟨hdepth, hpointer trivial⟩
  · exact ((m.level_of_expr e).runFrom heval).1

/-- A routine that pushes a value and calls itself, on a machine with some bytes on its stack and
room for three calls. -/
def descending : Machine Silent :=
  { memory := { bytes := #[0xC1, 0, 0, 0x40, 0x81, 5, 0x30, 0, 0, 0x31, 0] }
    stack := ⟨Array.replicate 64 0, 8, by decide⟩, ramStart := 0, host := {}
    limits := { maxDepth := 3 } }

theorem call_level_descending :
    ∃ m', descending.call 20 0 [] = some (.error (.callDepthExceeded 3), m') ∧
      m'.depth = 0 ∧ m'.stack.pointer = 8 := by
  have hfault : (descending.call 20 0 []).map (·.1) = some (.error (.callDepthExceeded 3)) := by
    decide +kernel
  obtain ⟨⟨result, m'⟩, hcall, hresult⟩ := Option.map_eq_some_iff.mp hfault
  obtain rfl : result = .error (.callDepthExceeded 3) := hresult
  exact ⟨m', hcall, (call_level descending).1 0 [] 20 _ m' hcall⟩

end StoryVM
