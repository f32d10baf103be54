import StoryVM.Proofs.Lockstep

/-! # What a halted machine does

A call on a halted machine does nothing and answers 0. An evaluation does not look at the flag before
it has come to its end: it executes the operations of the expression, with all that they do to the
value stack, to memory and to the host, and the routines that it calls, just as if the machine were
not halted. Only then the answer is 0, unless there was a fault (`halted_stops_calls_only`).

* `Lockstep.asleep`: a machine and the same machine with its flag set are in lockstep. Nothing but
  quitting depends on the flag, and a halted machine that quits only misses the event.
* `Machine.EndsLevel.settle_asleep`, `Machine.evaluate_asleep`: what runs settle to with the flag set,
  and what that means for an evaluation. -/

namespace StoryVM

variable {σ : Type}

/-- **A machine and the same machine halted** are in lockstep. Their events may differ. -/
def Lockstep.asleep : Lockstep σ where
  Like m m' := ∃ trace, m' = { m with halted := true, trace := trace }
  Excused _ := False
  values := .equal _
  Ready _ _ := True
  shares := by
    rintro m _ ⟨trace, rfl⟩
    exact ⟨rfl, rfl, rfl, rfl⟩
  stack := by
    rintro m _ ⟨trace, rfl⟩
    rfl
  limits := by
    rintro m _ ⟨trace, rfl⟩
    exact .inl rfl
  update := by
    rintro m _ ⟨trace, rfl⟩ s _ rfl memory frames host
    exact ⟨trace, rfl⟩
  count := by
    rintro m _ ⟨trace, rfl⟩
    exact ⟨trace, rfl⟩
  record := by
    rintro m _ ⟨trace, rfl⟩ e
    exact ⟨_, rfl⟩
  halt := by
    rintro m _ ⟨trace, rfl⟩
    refine ⟨trace, ?_⟩
    unfold Machine.halt
    cases hm : m.halted <;> rfl
  routineAt := by
    rintro m _ ⟨trace, rfl⟩ address - -
    unfold Machine.routineAt
    dsimp only
    split
    · exact .same _ ⟨trace, rfl⟩
    · split
      · exact .same _ ⟨trace, rfl⟩
      · exact .same _ ⟨_, rfl⟩

namespace Machine

variable {m m' : Machine σ}

/-- **What a level run settles to with the flag set**: the answer is 0. -/
theorem EndsLevel.settle_asleep {isCall : Prop} {start : Machine σ} {result : Except Fault UInt32}
    (h : m.EndsLevel isCall start result) (hm : Lockstep.asleep.Like m m') :
    (m'.settle start.depth result).1 = (m.settle start.depth result).1.map (fun _ => 0) ∧
      Lockstep.asleep.Like (m.settle start.depth result).2 (m'.settle start.depth result).2 := by
  have hunwind : Lockstep.asleep.Like (m.unwind (m.depth - start.depth))
      (m'.unwind (m.depth - start.depth)) :=
    Lockstep.asleep.unwind hm start.depth fun _ => False.elim
  have hhalted : m'.halted = true := by
    obtain ⟨trace, rfl⟩ := hm
    rfl
  unfold Machine.settle
  rw [Lockstep.asleep.depth hm]
  cases result with
  | error f => exact ⟨rfl, hunwind⟩
  | ok v =>
    dsimp only
    rw [if_pos hhalted]
    split
    · exact ⟨rfl, hunwind⟩
    · next hrunning =>
      -- The run has come back to where it began, so there is nothing to unwind.
      rw [h.left v rfl (by simpa using hrunning), Nat.sub_self]
      exact ⟨rfl, hm⟩

/-- **Evaluations do the same with the flag set**, but that the answer is 0. -/
theorem evaluate_asleep [Host σ] (hm : Lockstep.asleep.Like m m') (fuel : Nat) (e : Expr) :
    (m.evaluate fuel e = none → m'.evaluate fuel e = none) ∧
      ∀ result m₁, m.evaluate fuel e = some (result, m₁) →
        ∃ m₁', m'.evaluate fuel e = some (result.map fun _ => 0, m₁') ∧
          Lockstep.asleep.Like m₁ m₁' := by
  obtain ⟨hnone, hsome⟩ :=
    Lockstep.finish (fun _ _ => trivial) hm { program := Program.ofExpr e } fuel
  unfold evaluate runFrom
  rw [Lockstep.asleep.depth hm]
  refine ⟨fun h => ?_, fun result m₁ h => ?_⟩
  · rw [hnone (Option.map_eq_none_iff.mp h)]
    rfl
  · obtain ⟨⟨ended, last⟩, hfinish, hsettle⟩ := Option.map_eq_some_iff.mp h
    obtain ⟨last', hfinish', hlast⟩ := hsome ended last hfinish fun _ _ => id
    obtain ⟨hanswer, hsettled⟩ := ((m.level_of_expr e).finish hfinish).settle_asleep hlast
    rw [hsettle] at hanswer hsettled
    rw [hfinish']
    exact ⟨_, congrArg some (Prod.ext hanswer rfl), hsettled⟩

end Machine

/-- **A halted machine stops calls only.** A call does nothing at all and answers 0. An evaluation does
all that it does on the same machine when that one is not halted: it comes to its end with the same
fuel, it leaves the same memory, value stack, frames, routines, host and number of blocks behind, and
it has the same faults. Only an answer is replaced by 0. -/
theorem halted_stops_calls_only [Host σ] {m : Machine σ} (hm : m.halted = true) :
    (∀ fuel address args, m.call fuel address args = some (.ok 0, m)) ∧
    ∀ fuel e,
      (({ m with halted := false } : Machine σ).evaluate fuel e = none → m.evaluate fuel e = none) ∧
      ∀ result m', ({ m with halted := false } : Machine σ).evaluate fuel e = some (result, m') →
        ∃ trace, m.evaluate fuel e =
          some (result.map fun _ => 0, { m' with halted := true, trace := trace }) := by
  have hlike : Lockstep.asleep.Like ({ m with halted := false } : Machine σ) m :=
    ⟨m.trace, by rw [← hm]⟩
  refine ⟨fun fuel address args => if_pos hm, fun fuel e => ?_⟩
  obtain ⟨hnone, hsome⟩ := Machine.evaluate_asleep hlike fuel e
  refine ⟨hnone, fun result m' h => ?_⟩
  obtain ⟨_, heval, trace, rfl⟩ := hsome result m' h
  exact ⟨trace, heval⟩

/-- A halted machine with a 7 on its stack and a routine that returns 7. -/
def stopped : Machine Recorder :=
  { memory := { bytes := #[0xC1, 0, 0, 0x31, 1, 7] }
    stack := ⟨#[0, 0, 0, 7, 0, 0, 0, 0], 4, Nat.le_add_right 4 4⟩
    ramStart := 0, host := {}, halted := true }

theorem halted_stops_calls_only_stopped :
    stopped.halted = true ∧ stopped.call 9 0 [] = some (.ok 0, stopped) ∧
      ∃ m', stopped.evaluate 9 (.glk [.const 3, .const 0]) = some (.ok 0, m') ∧
        m'.host.requests = #[(3, [])] := by
  have hawake : (({ stopped with halted := false } : Machine Recorder).evaluate 9
      (.glk [.const 3, .const 0])).map (fun q => (q.1.toOption.isSome, q.2.host.requests)) =
        some (true, #[(3, [])]) := by
    decide +kernel
  obtain ⟨hcall, heval⟩ := halted_stops_calls_only (m := stopped) rfl
  obtain ⟨⟨f | v, m'⟩, hglk, hv⟩ := Option.map_eq_some_iff.mp hawake
  · cases (Prod.mk.inj hv).1
  · obtain ⟨trace, hresult⟩ := (heval 9 _).2 _ _ hglk
    have hrequests : m'.host.requests = #[(3, [])] := (Prod.mk.inj hv).2
    exact ⟨rfl, hcall 9 0 [], { m' with halted := true, trace := trace }, hresult, hrequests⟩

/-- **A halted machine is not inert.** Evaluations still take from its stack, ask its host, read
routines and enter blocks, and come to faults. -/
theorem halted_evaluates :
    (stopped.halted = true ∧ stopped.stack.pointer = 4 ∧ stopped.host.requests = #[] ∧
        stopped.isCached 0 = false ∧ stopped.steps = 0) ∧
      (stopped.evaluate 9 .pop).map (fun q => (q.1.toOption, q.2.stack.pointer)) = some (some 0, 0) ∧
      (stopped.evaluate 9 (.glk [.const 3, .const 0])).map
        (fun q => (q.1.toOption, q.2.host.requests)) = some (some 0, #[(3, [])]) ∧
      (stopped.evaluate 9 (.call (.const 0) [])).map
        (fun q => (q.1.toOption, q.2.isCached 0, q.2.steps)) = some (some 0, true, 1) ∧
      (stopped.evaluate 9 (.arith .div (.const 1) (.const 0))).map (·.1) =
        some (.error .divisionByZero) := by
  decide +kernel

end StoryVM
