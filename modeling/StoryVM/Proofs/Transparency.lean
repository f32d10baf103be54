import StoryVM.Proofs.Lockstep

/-! # Limits do not show until they trip

A call that does not run into a limit comes to the same on a machine with more room: one that allows
deeper calls or more blocks, or has a larger value stack (`call_transparent`).

A machine with more room is the given one with other limits and with bytes added to the end of its
stack's storage (`Machine.widen`, `Machine.Wider.eq_widen`). No operation reaches the added bytes
before the smaller stack has overflowed, so they never change, and the two machines stay in lockstep
until a limit trips.

* `Trips`: the outcome is a fault that a limit raises.
* `Stack.widening`, `Lockstep.widening`: a stack and a machine are in lockstep with the same that
  has more room; the faults of limits are excused.
* `Run.Level.runFrom_widen`, `Machine.call_widen`: runs and calls. -/

namespace StoryVM

/-- The outcome is a fault that a limit raises. -/
def Trips {α : Type} (x : Except Fault α) : Prop := ∃ f, x = .error f ∧ f.isLimit = true

theorem not_trips_ok {α : Type} (a : α) : ¬ Trips (.ok a : Except Fault α) := by
  rintro ⟨f, hf, -⟩
  cases hf

/-! ## The value stack -/

namespace Bytes

theorem window_append {bytes more : Array UInt8} {start count : Nat}
    (h : start + count ≤ bytes.size) :
    window (bytes ++ more) start count = window bytes start count := by
  unfold window
  refine List.map_congr_left fun k hk => ?_
  have hlt : start + k < bytes.size := by
    have := List.mem_range.mp hk
    omega
  rw [Array.getD_eq_getD_getElem?, Array.getD_eq_getD_getElem?, Array.getElem?_append_left hlt]

theorem splice_append {bytes more : Array UInt8} {start : Nat} {new : List UInt8}
    (h : start + new.length ≤ bytes.size) :
    splice (bytes ++ more) start new = splice bytes start new ++ more := by
  induction new generalizing bytes start with
  | nil => rfl
  | cons b rest ih =>
    rw [List.length_cons] at h
    have hlt : start < bytes.size := by omega
    rw [splice, splice, Array.setIfInBounds_append_left hlt]
    exact ih (by rw [Array.size_setIfInBounds]; omega)

end Bytes

namespace Stack

/-- **A stack with bytes added** to the end of its storage. -/
def widen (more : Array UInt8) (s : Stack) : Stack :=
  ⟨s.bytes ++ more, s.pointer, by
    rw [Array.size_append]
    exact Nat.le_trans s.pointer_le (Nat.le_add_right _ _)⟩

variable (more : Array UInt8) (s : Stack)

@[simp] theorem pointer_widen : (s.widen more).pointer = s.pointer := rfl

theorem capacity_le_widen : s.capacity ≤ (s.widen more).capacity := by
  simp [capacity, widen]

theorem window_widen {start count : Nat} (h : start + count ≤ s.pointer) :
    Bytes.window (s.widen more).bytes start count = Bytes.window s.bytes start count :=
  Bytes.window_append (Nat.le_trans h s.pointer_le)

theorem content_widen : (s.widen more).content = s.content :=
  s.window_widen more (Nat.le_of_eq (Nat.zero_add _))

theorem pushBytes_widen (new : List UInt8) :
    Agrees (·.isLimit = true) (fun s s' => s' = s.widen more) (s.pushBytes new)
      ((s.widen more).pushBytes new) := by
  unfold pushBytes
  by_cases hn : s.pointer + new.length ≤ s.capacity
  · have hn' : (s.widen more).pointer + new.length ≤ (s.widen more).capacity :=
      Nat.le_trans hn (s.capacity_le_widen more)
    rw [dif_pos hn, dif_pos hn']
    refine .ok ?_
    simp only [widen, Bytes.splice_append hn]
  · rw [dif_neg hn]
    exact .excused (by rfl) _

/-- **A stack and the same stack with bytes added** are alike until the first one overflows. -/
def widening : Likeness (·.isLimit = true) where
  Like s s' := s' = s.widen more
  pointer := by
    rintro s _ rfl
    rfl
  pop := by
    rintro s _ rfl w
    unfold Stack.pop
    by_cases hw : w.bytes ≤ s.pointer
    · have hwindow := s.window_widen more (Nat.le_of_eq (Nat.sub_add_cancel hw))
      rw [if_pos hw, if_pos (show w.bytes ≤ (s.widen more).pointer from hw)]
      simp only [pointer_widen, hwindow]
      exact .ok (.same _ rfl)
    · rw [if_neg hw, if_neg (show ¬ w.bytes ≤ (s.widen more).pointer from hw)]
      exact .error _
  push := by
    rintro s _ rfl w v
    exact s.pushBytes_widen more _
  copyDwords := by
    rintro s _ rfl count
    unfold Stack.copyDwords
    by_cases hc : 4 * count.toNat ≤ s.pointer
    · have hwindow := s.window_widen more (Nat.le_of_eq (Nat.sub_add_cancel hc))
      simp only [if_pos hc, if_pos (show 4 * count.toNat ≤ (s.widen more).pointer from hc)]
      rw [pointer_widen, hwindow]
      exact s.pushBytes_widen more _
    · simp only [if_neg hc, if_neg (show ¬ 4 * count.toNat ≤ (s.widen more).pointer from hc)]
      exact .error _
  restore := by
    rintro s _ rfl pointer
    unfold Stack.restore
    by_cases hp : pointer ≤ s.capacity
    · rw [dif_pos hp, dif_pos (Nat.le_trans hp (s.capacity_le_widen more))]
      exact .ok rfl
    · rw [dif_neg hp]
      exact .excused (by rfl) _

end Stack

/-! ## The machine -/

variable {σ : Type}

namespace Machine

/-- **A machine with other limits**, and with bytes added to the storage of its stack. -/
def widen (l : Limits) (more : Array UInt8) (m : Machine σ) : Machine σ :=
  { m with limits := l, stack := m.stack.widen more }

/-- **A machine with more room**: all is the same but for the limits, which allow at least as much,
and the storage of the stack, which may go on behind where the other's ends. -/
structure Wider (m' m : Machine σ) : Prop where
  memory : m'.memory = m.memory
  ramStart : m'.ramStart = m.ramStart
  routines : m'.routines = m.routines
  frames : m'.frames = m.frames
  host : m'.host = m.host
  steps : m'.steps = m.steps
  halted : m'.halted = m.halted
  trace : m'.trace = m.trace
  limits : m'.limits.Allows m.limits
  pointer : m'.stack.pointer = m.stack.pointer
  capacity : m.stack.capacity ≤ m'.stack.capacity
  bytes : ∀ i < m.stack.capacity, m'.stack.bytes[i]? = m.stack.bytes[i]?

theorem wider_widen {m : Machine σ} {l : Limits} (hl : l.Allows m.limits) (more : Array UInt8) :
    (m.widen l more).Wider m where
  memory := rfl
  ramStart := rfl
  routines := rfl
  frames := rfl
  host := rfl
  steps := rfl
  halted := rfl
  trace := rfl
  limits := hl
  pointer := rfl
  capacity := m.stack.capacity_le_widen more
  bytes _ hi := Array.getElem?_append_left hi

/-- **Machines with more room are widened machines.** -/
theorem Wider.eq_widen {m m' : Machine σ} (h : m'.Wider m) :
    ∃ more, m' = m.widen m'.limits more := by
  have hcapacity : m.stack.bytes.size ≤ m'.stack.bytes.size := h.capacity
  obtain ⟨more, hbytes⟩ : ∃ more, m'.stack.bytes = m.stack.bytes ++ more := by
    refine ⟨m'.stack.bytes.extract m.stack.bytes.size, Array.ext_getElem? fun i => ?_⟩
    rw [Array.getElem?_append]
    split
    · next hi => exact h.bytes i hi
    · next hi =>
      rw [Array.getElem?_extract, Nat.add_sub_of_le (Nat.not_lt.mp hi)]
      split
      · rfl
      · exact Array.getElem?_eq_none (by omega)
  obtain ⟨memory, ⟨bytes, pointer, hp⟩, ramStart, routines, frames, host, limits, steps, halted,
    trace⟩ := m'
  obtain ⟨rfl, rfl, rfl, rfl, rfl, rfl, rfl, rfl, -, rfl, -, -⟩ := h
  obtain rfl : bytes = m.stack.bytes ++ more := hbytes
  exact ⟨more, rfl⟩

theorem halt_widen (l : Limits) (more : Array UInt8) (m : Machine σ) :
    (m.widen l more).halt = m.halt.widen l more := by
  cases hm : m.halted with
  | true => simp [halt, widen, hm]
  | false => simp [halt, widen, hm, record]

theorem routineAt_widen (l : Limits) (more : Array UInt8) (m : Machine σ) (address : UInt32) :
    (m.widen l more).routineAt address = (m.routineAt address).map id (widen l more) := by
  unfold routineAt
  dsimp only [widen]
  cases m.routines.get? address with
  | some r => rfl
  | none =>
    cases Routine.decode m.memory address m.ramStart with
    | error f => rfl
    | ok r => rfl

end Machine

/-- **A machine and the same machine with more room** are in lockstep until a limit trips. -/
def Lockstep.widening (l : Limits) (more : Array UInt8) : Lockstep σ where
  Like m m' := m' = m.widen l more ∧ l.Allows m.limits
  Excused f := f.isLimit = true
  values := Stack.widening more
  Ready _ _ := True
  shares := by
    rintro m _ ⟨rfl, -⟩
    exact ⟨rfl, rfl, rfl, rfl⟩
  stack := by
    rintro m _ ⟨rfl, -⟩
    rfl
  limits := by
    rintro m _ ⟨rfl, hl⟩
    exact .inr ⟨hl, fun _ => id⟩
  update := by
    rintro m _ ⟨rfl, hl⟩ s _ rfl memory frames host
    exact ⟨rfl, hl⟩
  count := by
    rintro m _ ⟨rfl, hl⟩
    exact ⟨rfl, hl⟩
  record := by
    rintro m _ ⟨rfl, hl⟩ e
    exact ⟨rfl, hl⟩
  halt := by
    rintro m _ ⟨rfl, hl⟩
    refine ⟨m.halt_widen l more, ?_⟩
    unfold Machine.halt
    split <;> exact hl
  routineAt := by
    rintro m _ ⟨rfl, hl⟩ address - -
    obtain ⟨routines, trace, hat⟩ := m.routineAt_changes address
    have hl' : l.Allows (m.routineAt address).2.limits := by
      rw [hat]
      exact hl
    rw [m.routineAt_widen l more address]
    exact .same _ ⟨rfl, hl'⟩

/-! ## Runs and calls -/

section Runs

variable [Host σ] {l : Limits} {more : Array UInt8} {m m' : Machine σ}

/-- **What a level run settles to with more room**, unless a limit trips. -/
theorem Run.Level.runFrom_widen {isCall : Prop} {start : Machine σ} {a : Activation}
    (h : Run.Level ⟨m, a, []⟩ isCall start) (hm : (Lockstep.widening l more).Like m m') {fuel : Nat}
    {result : Except Fault UInt32} {m₁ : Machine σ}
    (hrun : m.runFrom fuel start.depth a = some (result, m₁)) (hresult : ¬ Trips result) :
    ∃ m₁', m'.runFrom fuel start.depth a = some (result, m₁') ∧
      (Lockstep.widening l more).Like m₁ m₁' := by
  obtain ⟨⟨ended, last⟩, hfinish, hsettle⟩ := Option.map_eq_some_iff.mp hrun
  have hend := h.finish hfinish
  have hended : ∀ f, ended = .error f → ¬ f.isLimit = true := by
    rintro f rfl hf
    exact hresult ⟨f, (congrArg Prod.fst hsettle).symm, hf⟩
  obtain ⟨last', hfinish', hlast⟩ :=
    (Lockstep.finish (fun _ _ => trivial) hm a fuel).2 ended last hfinish hended
  have hhalted : last'.halted = last.halted := by rw [hlast.1, Machine.widen]
  obtain ⟨hanswer, hsettled⟩ :=
    (Lockstep.widening l more).settle hlast hhalted start.depth (fun _ _ => hend.leavable) ended
  rw [hsettle] at hanswer hsettled
  rw [Machine.runFrom, hfinish']
  exact ⟨(last'.settle start.depth ended).2, congrArg some (Prod.ext hanswer rfl), hsettled⟩

/-- **Calls do the same with more room**, unless a limit trips. -/
theorem Machine.call_widen (hm : (Lockstep.widening l more).Like m m') {fuel : Nat}
    {address : UInt32} {args : List UInt32} {result : Except Fault UInt32} {m₁ : Machine σ}
    (hcall : m.call fuel address args = some (result, m₁)) (hresult : ¬ Trips result) :
    ∃ m₁', m'.call fuel address args = some (result, m₁') ∧
      (Lockstep.widening l more).Like m₁ m₁' := by
  have hhalted : m'.halted = m.halted := by rw [hm.1, Machine.widen]
  have henter := (Lockstep.widening l more).enter hm address args
    (fun _ => trivial) fun _ => trivial
  unfold Machine.call at hcall ⊢
  rw [hhalted, (Lockstep.widening l more).depth hm]
  split at hcall
  · next hstopped =>
    cases hcall
    rw [if_pos hstopped]
    exact ⟨m', rfl, hm⟩
  · next hrunning =>
    rw [if_neg hrunning]
    generalize m'.enter address args = q' at henter ⊢
    split at hcall
    · next f m₂ hm₂ =>
      cases hcall
      rw [hm₂] at henter
      cases henter with
      | same x hm₁ => exact ⟨_, rfl, hm₁⟩
      | excused hf => exact absurd ⟨_, rfl, hf⟩ hresult
    · next routine entered hentered =>
      rw [hentered] at henter
      cases henter with
      | same x hm₁ => exact (Machine.level_of_enter hentered).runFrom_widen hm₁ hcall hresult

end Runs

/-- **Limits do not show until they trip.** If a machine has more room than another, and a call on
the other gives back something else than the fault of a limit, then the call on the first gives back
the same, and leaves it with more room than the other and nothing else different: the same memory,
routines, frames, host, steps and halting, and the same content of the stack. -/
theorem call_transparent [Host σ] {m m' : Machine σ} (h : m'.Wider m) {fuel : Nat}
    {address : UInt32} {args : List UInt32} {result : Except Fault UInt32} {m₁ : Machine σ}
    (hcall : m.call fuel address args = some (result, m₁)) (hresult : ¬ Trips result) :
    ∃ m₁', m'.call fuel address args = some (result, m₁') ∧ m₁'.Wider m₁ ∧
      m₁'.stack.content = m₁.stack.content ∧ m₁'.depth = m₁.depth := by
  obtain ⟨more, hm'⟩ := h.eq_widen
  obtain ⟨_, hcall', rfl, hlimits⟩ := Machine.call_widen ⟨hm', h.limits⟩ hcall hresult
  exact ⟨_, hcall', Machine.wider_widen hlimits more, m₁.stack.content_widen more, rfl⟩

/-- A routine that pushes 5, calls another one that returns 7, and returns the sum of the two. The
machine has as little room as that takes: two calls, two blocks, and two dwords on the stack above
the 9 that lies there. -/
def confined : Machine Silent :=
  { memory :=
      { bytes := #[0xC1, 0, 0, 0x40, 0x81, 5, 0x81, 0x60, 0x81, 15, 0x10, 0x88, 8, 0x31, 8,
          0xC1, 0, 0, 0x31, 1, 7] }
    stack := ⟨#[0, 0, 0, 9, 1, 1, 1, 1, 1, 1, 1, 1], 4, by decide⟩, ramStart := 0, host := {}
    limits := { maxDepth := 2, maxSteps := some 2 } }

/-- The same machine with a larger stack and with other limits. -/
def roomy : Machine Silent :=
  { confined with stack := ⟨confined.stack.bytes ++ Array.replicate 8 3, 4, by decide⟩, limits := {} }

theorem call_transparent_confined :
    roomy.Wider confined ∧
      ∃ m₁, roomy.call 20 0 [] = some (.ok 12, m₁) ∧ m₁.steps = 2 ∧
        m₁.stack.content = [0, 0, 0, 9] := by
  have hwider : roomy.Wider confined :=
    ⟨rfl, rfl, rfl, rfl, rfl, rfl, rfl, rfl, ⟨by decide, nofun⟩, rfl, by decide, by decide⟩
  have hcall : (confined.call 20 0 []).map (fun p => (p.1.toOption, p.2.steps, p.2.stack.content)) =
      some (some 12, 2, [0, 0, 0, 9]) := by
    decide +kernel
  obtain ⟨⟨f | v, m₁⟩, hcall, hv⟩ := Option.map_eq_some_iff.mp hcall
  · cases hv
  · obtain ⟨htwelve, hrest⟩ := Prod.mk.inj hv
    obtain ⟨hsteps, hcontent⟩ := Prod.mk.inj hrest
    obtain rfl : v = 12 := Option.some.inj htwelve
    obtain ⟨m₁', hcall', hwider', hcontent', -⟩ := call_transparent hwider hcall (not_trips_ok 12)
    exact ⟨hwider, m₁', hcall', hwider'.steps.trans hsteps, hcontent'.trans hcontent⟩

end StoryVM
