import StoryVM.Fault

/-! # Working on a state in place

Readers and builders are given here as functions from a state to an answer and the next state, which
have no state if they fail. A program that works on one state in place leaves it behind either way,
with whatever it had done to it by then. Both forms are put side by side in such actions: `runFrom`
gives the answer and the state that is left. -/

namespace StoryVM

/-- **Actions on one state**, which they leave behind also when they fail. -/
abbrev InPlace (σ α : Type) := ExceptT Fault (StateM σ) α

namespace InPlace

variable {σ α β : Type}

/-- The answer of an action that starts from a state, and the state that it leaves behind. -/
def runFrom (x : InPlace σ α) (s : σ) : Except Fault α × σ := (ExceptT.run x).run s

/-- Looks at the state without changing it. -/
def look (f : σ → Except Fault α) : InPlace σ α := do
  let s ← get
  match f s with
  | .ok a => return a
  | .error fault => throw fault

/-- What follows an action starts from the state that it leaves, unless it fails. -/
theorem runFrom_bind (x : InPlace σ α) (f : α → InPlace σ β) (s : σ) :
    (x >>= f).runFrom s = match x.runFrom s with
      | (.ok a, s') => (f a).runFrom s'
      | (.error e, s') => (.error e, s') := by
  unfold runFrom
  rw [ExceptT.run_bind, StateT.run_bind]
  rcases (ExceptT.run x).run s with ⟨_ | a, s'⟩ <;> rfl

theorem runFrom_look (f : σ → Except Fault α) (s : σ) : (look f).runFrom s = (f s, s) := by
  unfold look
  rw [runFrom_bind]
  change (match f s with | .ok a => pure a | .error e => throw e : InPlace σ α).runFrom s = _
  cases f s <;> rfl

end InPlace

end StoryVM
