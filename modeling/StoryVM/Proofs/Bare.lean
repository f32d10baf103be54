import StoryVM.Proofs.Lockstep

/-! # Machines without their history

A machine keeps the routines it has read and the events it has reported. Nothing that it does depends
on the events, and it depends on the routines only where one is called that has been read before. So
machines that differ in these two alone do the same, as long as the routines that they have read are
what memory holds.

* `Machine.bare`: a machine without the routines and the events.
* `Machine.UpToDate`: what the machine has read at an address is what memory has there.
* `Lockstep.bare`: machines with the same bare part are in lockstep, where they are up to date. -/

namespace StoryVM

variable {σ : Type}

namespace Machine

/-- **What there is of a machine** besides the routines it has read and the events it has reported:
memory, the value stack, the frames, the host, the limits, the number of blocks entered and whether
it is halted. -/
def bare (m : Machine σ) : Machine σ := { m with routines := ∅, trace := #[] }

variable {m m' : Machine σ}

theorem halt_bare (m : Machine σ) : m.halt.bare = m.bare.halt.bare := by
  cases hm : m.halted <;> simp [halt, bare, record, hm]

/-- **What the machine has read at an address is what memory has there**, if it has read it. -/
def UpToDate (m : Machine σ) (address : UInt32) : Prop :=
  ∀ r, m.routines[address]? = some r → Routine.decode m.memory address m.ramStart = .ok r

theorem routineAt_of_cached {address : UInt32} {r : Routine} (h : m.routines[address]? = some r) :
    m.routineAt address = (.ok r, m) := by
  unfold routineAt
  rw [Std.TreeMap.get?_eq_getElem?, h]

/-- **An up-to-date machine gets a routine as memory has it**, whether it has read it or not. -/
theorem UpToDate.routineAt {address : UInt32} (h : m.UpToDate address) :
    (m.routineAt address).1 = Routine.decode m.memory address m.ramStart ∧
      (m.routineAt address).2.bare = m.bare := by
  cases hget : m.routines[address]? with
  | some r =>
    rw [routineAt_of_cached hget, h r hget]
    exact ⟨rfl, rfl⟩
  | none =>
    unfold Machine.routineAt
    rw [Std.TreeMap.get?_eq_getElem?, hget]
    cases Routine.decode m.memory address m.ramStart with
    | error f => exact ⟨rfl, rfl⟩
    | ok r => exact ⟨rfl, rfl⟩

end Machine

/-- **Machines with the same bare part** are in lockstep, as long as the routines that they get are up
to date on both. -/
def Lockstep.bare : Lockstep σ where
  Like m m' := m.bare = m'.bare
  Excused _ := False
  values := .equal _
  Ready := Machine.UpToDate
  shares h := ⟨(congrArg (·.memory) h).symm, (congrArg (·.frames) h).symm,
    (congrArg (·.host) h).symm, (congrArg (·.steps) h).symm⟩
  stack h := (congrArg Machine.stack h).symm
  limits h := .inl (congrArg Machine.limits h).symm
  update := by
    intro m m' h s s' hs memory frames host
    obtain rfl : s' = s := hs
    exact congrArg (fun m => { m with memory := memory, stack := s', frames := frames, host := host }) h
  count h := congrArg (fun m => { m with steps := m.steps + 1 }) h
  record h _ := h
  halt := by
    intro m m' h
    rw [m.halt_bare, h, ← m'.halt_bare]
  routineAt := by
    intro m m' h address hm hm'
    have hmemory : m.memory = m'.memory := congrArg (·.memory) h
    have hramStart : m.ramStart = m'.ramStart := congrArg (·.ramStart) h
    obtain ⟨hroutine, hbare⟩ := hm.routineAt
    obtain ⟨hroutine', hbare'⟩ := hm'.routineAt
    rw [hmemory, hramStart, ← hroutine'] at hroutine
    generalize m.routineAt address = q, m'.routineAt address = q' at *
    obtain ⟨x, m₁⟩ := q
    obtain ⟨x', m₁'⟩ := q'
    obtain rfl : x = x' := hroutine
    exact .same x (hbare.trans (h.trans hbare'.symm))

end StoryVM
