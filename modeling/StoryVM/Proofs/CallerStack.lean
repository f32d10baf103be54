import StoryVM.Proofs.Requests

/-! # What a call does to its caller's values on the stack

Nothing keeps a routine from popping values that were on the value stack before it was entered. When
it is left, the stack pointer goes back to where it was, but what the routine has pushed over those
values stays (`call_overwrites_stack`). Without such pops it cannot reach them: pushes write at the
pointer and above, and pops write nothing. So everything below the lowest position that the pointer
came to is as it was (`call_spares_stack`).

* `Stack.SameBelow`: two stacks hold the same bytes below a position.
* `Machine.StaysAbove`: the stack pointer is not below a position, and was not when one of the
  routines above a depth was entered. A routine is entered in the middle of a step, after its
  arguments have been popped, so its frame is where the pointer of that moment is found.
* `Run.sameBelow_step`, `Progress.sameBelow_after`: steps and runs that stay above a position write
  nothing below it. -/

namespace StoryVM

variable {σ : Type}

/-! ## The value stack -/

namespace Stack

/-- **The same bytes below a position.** -/
def SameBelow (p : Nat) (s s' : Stack) : Prop := ∀ i < p, s'.bytes[i]? = s.bytes[i]?

variable {p : Nat} {s s₁ s₂ : Stack}

theorem SameBelow.refl (s : Stack) : SameBelow p s s := fun _ _ => rfl

theorem SameBelow.trans (h : SameBelow p s s₁) (h' : SameBelow p s₁ s₂) : SameBelow p s s₂ :=
  fun i hi => (h' i hi).trans (h i hi)

theorem SameBelow.of_bytes (h : s₁.bytes = s.bytes) : SameBelow p s s₁ := fun _ _ => by rw [h]

/-- **Pushing** writes at the pointer and above. -/
theorem sameBelow_pushBytes {new : List UInt8} (hp : p ≤ s.pointer) (h : s.pushBytes new = .ok s₁) :
    SameBelow p s s₁ ∧ s.pointer ≤ s₁.pointer := by
  unfold pushBytes at h
  split at h
  · next hroom =>
    obtain rfl := Except.ok.inj h
    refine ⟨fun i hi => ?_, Nat.le_add_right _ _⟩
    rw [Bytes.getElem?_splice _ _ _ _ hroom, if_neg (by omega)]
  · cases h

theorem bytes_pop {w : Width} {v : UInt32} (h : s.pop w = .ok (v, s₁)) : s₁.bytes = s.bytes := by
  unfold pop at h
  split at h
  · cases h
    rfl
  · cases h

theorem bytes_popDwords {n : Nat} {vs : List UInt32} (h : s.popDwords n = .ok (vs, s₁)) :
    s₁.bytes = s.bytes := by
  have hyields : Yields (s.popDwords n) fun q => q.2.bytes = s.bytes := by
    clear h
    induction n generalizing s with
    | zero => exact .pure rfl
    | succ n ih =>
      refine .bind (P := fun q => q.2.bytes = s.bytes) (fun q hq => bytes_pop hq) fun q hq => ?_
      exact .bind ih fun q' hq' => .pure (hq'.trans hq)
  exact hyields _ h

/-- **No operation writes below the pointer.** -/
theorem Change.sameBelow (hp : p ≤ s.pointer) (h : s.Change s₁) : SameBelow p s s₁ := by
  cases h with
  | pop h => exact .of_bytes (bytes_pop h)
  | popArguments h =>
    unfold Stack.popArguments at h
    split at h
    · exact .of_bytes (bytes_popDwords h)
    · cases h
  | push h => exact (sameBelow_pushBytes hp h).1
  | copy h =>
    unfold copyDwords at h
    dsimp only at h
    split at h
    · exact (sameBelow_pushBytes hp h).1
    · cases h

theorem sameBelow_pushDwords (hp : p ≤ s.pointer) (vs : List UInt32) :
    SameBelow p s (s.pushDwords vs).2 := by
  induction vs generalizing s with
  | nil => exact .refl s
  | cons v rest ih =>
    unfold pushDwords
    split
    · next s' hs =>
      obtain ⟨hsame, hle⟩ := sameBelow_pushBytes hp hs
      exact hsame.trans (ih (Nat.le_trans hp hle))
    · exact .refl s

theorem bytes_restore {pointer : Nat} (h : s.restore pointer = .ok s₁) : s₁.bytes = s.bytes := by
  unfold restore at h
  split at h
  · obtain rfl := Except.ok.inj h
    rfl
  · cases h

end Stack

/-! ## The machine -/

namespace Machine

/-- **The stack pointer stays above a position**: it is not below it, and was not when one of the
routines above a depth was entered. -/
def StaysAbove (base p : Nat) (m : Machine σ) : Prop :=
  p ≤ m.stack.pointer ∧ ∀ f ∈ m.frames.toList.drop base, p ≤ f.base

instance (base p : Nat) (m : Machine σ) : Decidable (m.StaysAbove base p) :=
  inferInstanceAs (Decidable (_ ∧ _))

variable {base p : Nat} {m m' : Machine σ}

theorem StaysAbove.base_le (h : m'.StaysAbove base p) {f : Frame}
    (hframes : m'.frames = m.frames.push f) (hd : base ≤ m.depth) : p ≤ f.base := by
  have hlength : base ≤ m.frames.toList.length := hd
  refine h.2 f ?_
  rw [hframes, Array.toList_push, List.drop_append_of_le_length hlength]
  exact List.mem_append_right _ List.mem_cons_self

theorem After.sameBelow {op : Op} (hp : p ≤ m.stack.pointer) (h : m.After op m') :
    m.stack.SameBelow p m'.stack := by
  cases h with
  | change h =>
    cases h with
    | stack hs host => exact hs.sameBelow hp
    | host host => exact .refl _
    | memory h => exact .refl _
    | frame hf hw => exact .refl _
  | count l =>
    unfold countStep
    dsimp only
    split
    · exact .refl _
    · split <;> exact .refl _
  | halt =>
    unfold Machine.halt
    split <;> exact .refl _

/-- **Entering a routine** pushes its arguments at most. -/
theorem enter_sameBelow (hp : p ≤ m.stack.pointer) (address : UInt32) (args : List UInt32) :
    m.stack.SameBelow p (m.enter address args).2.stack := by
  obtain ⟨routines, trace, hat⟩ := m.routineAt_changes address
  unfold enter
  split
  · exact .refl _
  · split
    · next f m₁ hm₁ =>
      rw [hm₁] at hat
      subst hat
      exact .refl _
    · next r m₁ hm₁ =>
      rw [hm₁] at hat
      subst hat
      dsimp only
      split
      · exact .refl _
      · have hpush := Stack.sameBelow_pushDwords hp (args.reverse ++ [UInt32.ofNat args.length])
        split
        · next stack hstack =>
          rw [hstack] at hpush
          exact hpush
        · next f stack hstack =>
          rw [hstack] at hpush
          split
          · next restored hrestore => exact hpush.trans (.of_bytes (Stack.bytes_restore hrestore))
          · exact hpush

/-- **Leaving a routine** moves the pointer only. -/
theorem bytes_leave (m : Machine σ) : m.leave.2.stack.bytes = m.stack.bytes := by
  unfold leave
  split
  · rfl
  · dsimp only
    split
    · next stack hrestore => exact Stack.bytes_restore hrestore
    · rfl

theorem upheldByLeaving_bytes :
    UpheldByLeaving fun m m' : Machine σ => m'.stack.bytes = m.stack.bytes where
  refl _ := rfl
  trans h h' := h'.trans h
  leave m := m.bytes_leave
  record _ _ := rfl

end Machine

/-! ## Runs -/

variable {base p : Nat} {r : Run σ}

/-- **Calling** a routine from at least a depth writes nothing below where the pointer stays. -/
theorem Run.sameBelow_callRoutine {m : Machine σ} (hd : base ≤ m.depth) {address : UInt32}
    {args : List UInt32} {caller : Activation}
    (h : (r.callRoutine address args caller m).machine.StaysAbove base p) :
    m.stack.SameBelow p (r.callRoutine address args caller m).machine.stack := by
  have henter : p ≤ m.stack.pointer → m.stack.SameBelow p (m.enter address args).2.stack :=
    fun hp => Machine.enter_sameBelow hp address args
  unfold Run.callRoutine at h ⊢
  split at h
  · next f m' hm' =>
    rw [hm'] at henter
    refine henter ?_
    have hp : p ≤ m'.stack.pointer := h.1
    obtain ⟨routines, stack, trace, rfl, hpointer⟩ := Machine.enter_error hm'
    exact hpointer ▸ hp
  · next routine m' hm' =>
    rw [hm'] at henter
    refine henter ?_
    have he := (m.enter_spec address args).1 routine m' hm'
    obtain ⟨f, hframes, hshape⟩ := he.frames
    have hbase : f.base = m.stack.pointer := congrArg Prod.fst hshape
    exact hbase ▸ Machine.StaysAbove.base_le h hframes hd

theorem Progress.Level.depth_le {isCall : Prop} {start : Machine σ} {q : Progress σ}
    (h : q.Level isCall start) : start.depth ≤ q.machine.depth := by
  cases q with
  | running r =>
    have hdepth := Run.Level.depth h
    show start.depth ≤ r.machine.depth
    omega
  | finished result m => exact Machine.EndsLevel.depth h

variable [Host σ]

/-- **Steps that stay above a position** write nothing below it. -/
theorem Run.sameBelow_step (hd : base ≤ r.machine.depth) (hr : r.machine.StaysAbove base p)
    (h : r.step.machine.StaysAbove base p) :
    r.machine.stack.SameBelow p r.step.machine.stack := by
  cases hop : r.current.program.ops[r.current.pc]? with
  | none =>
    have hstep : r.step = r.returnValue 0 r.machine := by rw [Run.step, hop]
    rw [hstep]
    exact .of_bytes (Machine.upheldByLeaving_bytes.returnValue r 0 r.machine)
  | some op =>
    have hdoes := op.exec_does { r.current with pc := r.current.pc + 1 } r.machine
    have hkeeps := op.exec_keeps { r.current with pc := r.current.pc + 1 } r.machine
    have hsame := hdoes.machine.sameBelow hr.1
    rw [Run.step_of_fetch hop] at h ⊢
    generalize op.exec { r.current with pc := r.current.pc + 1 } r.machine = t
      at hkeeps hsame h ⊢
    cases t with
    | next a m => exact hsame
    | call address args a m =>
      have hdepth : base ≤ m.depth := by
        rw [hkeeps.2.depth]
        exact hd
      exact hsame.trans (Run.sameBelow_callRoutine hdepth h)
    | ret v m => exact hsame.trans (.of_bytes (Machine.upheldByLeaving_bytes.returnValue r v m))
    | halt m => exact hsame
    | fault f m => exact hsame

/-- **Runs that stay above a position** write nothing below it. -/
theorem Progress.sameBelow_after {q : Progress σ} {n : Nat}
    (h : ∀ k ≤ n, base ≤ (q.after k).machine.depth ∧ (q.after k).machine.StaysAbove base p) :
    q.machine.stack.SameBelow p (q.after n).machine.stack := by
  induction n generalizing q with
  | zero => exact .refl _
  | succ n ih =>
    cases q with
    | finished result m => exact .refl _
    | running r =>
      obtain ⟨hdepth, hr⟩ := h 0 (Nat.zero_le _)
      have hstep := Run.sameBelow_step hdepth hr (h 1 (by omega)).2
      refine hstep.trans (ih fun k hk => ?_)
      exact h (k + 1) (by omega)

/-! ## Calls -/

/-- **A call spares the values that it does not pop.** Take a position on the stack, at most where
the pointer is when a routine is called. If the pointer stays above it all along the run, then the
bytes below it are afterwards what they were before, whatever the call comes to. The same is true of
every call that a program makes in the middle of a run, as long as the routine that made it has not
been left. -/
theorem call_spares_stack (p : Nat) :
    (∀ (m : Machine σ) address args fuel, p ≤ m.stack.pointer →
      (∀ routine entered, m.enter address args = (.ok routine, entered) → ∀ n ≤ fuel,
        ((Progress.running ⟨entered, .ofRoutine routine address, []⟩).after n).machine.StaysAbove
          m.depth p) →
      ∀ result m', m.call fuel address args = some (result, m') →
        m.stack.SameBelow p m'.stack) ∧
    ∀ (r r₁ : Run σ) address args caller m, r.callRoutine address args caller m = .running r₁ →
      p ≤ m.stack.pointer → ∀ n,
      (∀ k ≤ n, m.depth ≤ ((Progress.running r₁).after k).machine.depth ∧
        ((Progress.running r₁).after k).machine.StaysAbove m.depth p) →
      m.stack.SameBelow p ((Progress.running r₁).after n).machine.stack := by
  constructor
  · intro m address args fuel hp hstays result m' hcall
    have henter := Machine.enter_sameBelow hp address args
    unfold Machine.call at hcall
    split at hcall
    · cases hcall
      exact .refl _
    · split at hcall
      · next f m₁ hm₁ =>
        cases hcall
        rw [hm₁] at henter
        exact henter
      · next routine m₁ hm₁ =>
        rw [hm₁] at henter
        have hlevel : (Progress.running ⟨m₁, .ofRoutine routine address, []⟩).Level True m :=
          Machine.level_of_enter hm₁
        have hrun := Progress.sameBelow_after fun k hk =>
          ⟨(hlevel.after k).depth_le, hstays routine m₁ hm₁ k hk⟩
        obtain ⟨⟨ended, last⟩, hfinish, hsettle⟩ := Option.map_eq_some_iff.mp hcall
        rw [Run.after_of_finish hfinish] at hrun
        have hbytes := Machine.upheldByLeaving_bytes.settle last m.depth ended
        rw [hsettle] at hbytes
        exact henter.trans (hrun.trans (.of_bytes hbytes))
  · intro r r₁ address args caller m hcall hp n hstays
    have henter := Machine.enter_sameBelow hp address args
    unfold Run.callRoutine at hcall
    split at hcall
    · cases hcall
    · next routine m₁ hm₁ =>
      cases hcall
      rw [hm₁] at henter
      exact henter.trans (Progress.sameBelow_after hstays)

theorem call_spares_stack_descending :
    ∃ m', descending.call 20 0 [] = some (.error (.callDepthExceeded 3), m') ∧
      descending.stack.SameBelow 8 m'.stack := by
  have hfault : (descending.call 20 0 []).map (·.1) = some (.error (.callDepthExceeded 3)) := by
    decide +kernel
  obtain ⟨⟨result, m'⟩, hcall, hresult⟩ := Option.map_eq_some_iff.mp hfault
  obtain rfl : result = .error (.callDepthExceeded 3) := hresult
  have hstays : ∀ routine entered, descending.enter 0 [] = (.ok routine, entered) → ∀ n ≤ 20,
      ((Progress.running ⟨entered, .ofRoutine routine 0, []⟩).after n).machine.StaysAbove
        descending.depth 8 := by
    have hrun : ∀ n ≤ 20, (match descending.enter 0 [] with
        | (.ok routine, entered) => decide (((Progress.running
            ⟨entered, .ofRoutine routine 0, []⟩).after n).machine.StaysAbove descending.depth 8)
        | (.error _, _) => true) = true := by
      decide +kernel
    intro routine entered henter n hn
    have hn := hrun n hn
    rw [henter] at hn
    exact of_decide_eq_true hn
  exact ⟨m', hcall, (call_spares_stack 8).1 descending 0 [] 20 (by decide) hstays _ m' hcall⟩

/-- A routine that pops a value and pushes 9, on a machine with a 7 on its stack. -/
def overwriting : Machine Silent :=
  { memory := { bytes := #[0xC1, 0, 0, 0x40, 0x08, 0x40, 0x81, 9, 0x31, 0] }
    stack := ⟨#[0, 0, 0, 7, 0, 0, 0, 0], 4, by decide⟩, ramStart := 0, host := {} }

/-- **A call can change its caller's values**: the 7 that was on the stack is a 9 afterwards. -/
theorem call_overwrites_stack :
    ∃ m', overwriting.call 10 0 [] = some (.ok 0, m') ∧
      m'.stack.pointer = overwriting.stack.pointer ∧ overwriting.stack.content = [0, 0, 0, 7] ∧
      m'.stack.content = [0, 0, 0, 9] := by
  have hcall : (overwriting.call 10 0 []).map (fun q => (q.1.toOption, q.2.stack)) =
      some (some 0, ⟨#[0, 0, 0, 9, 0, 0, 0, 0], 4, by decide⟩) := by
    decide +kernel
  obtain ⟨⟨f | v, m'⟩, hcall, hv⟩ := Option.map_eq_some_iff.mp hcall
  · cases (Prod.mk.inj hv).1
  · obtain ⟨hzero, hstack⟩ := Prod.mk.inj hv
    obtain rfl : v = 0 := Option.some.inj hzero
    refine ⟨m', hcall, ?_, by decide, ?_⟩
    · rw [hstack]
      rfl
    · rw [hstack]
      rfl

end StoryVM
