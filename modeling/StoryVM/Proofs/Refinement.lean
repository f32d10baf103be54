import StoryVM.Machine.Run
import StoryVM.Proofs.Steady

/-! # Runs follow the meaning of bodies

A run of a flat program does what the meaning of the body says: it comes to the same result on the
same machine, or neither comes to an end (`call_iff_callTree`).

* `Follows`: how a run relates to the outcome of a computation. If the computation gives a value,
  the run comes to where that value leads; if it stops, the run ends, and leaving the routines it
  has entered gives the machine of the outcome; if the fuel does not suffice, the run takes at least
  a certain number of steps. Computations in sequence are followed in sequence (`Follows.bind`).
* `Expr.eval_follows`, `Stmt.exec_follows`, `Body.run_follows`: one lemma for each layer of the
  tree, for any meaning of calls that is followed (`Simulates`).
* `invoke_simulates`: calls are followed. -/

namespace StoryVM

variable {σ : Type}

/-! ## Leaving routines -/

namespace Machine

/-- Leaving some routines of the first machine gives the second one. -/
inductive LeavesTo : Machine σ → Machine σ → Prop
  | refl (m : Machine σ) : LeavesTo m m
  | step {m₁ m₂ m₃ : Machine σ} (h : m₁.leave = (.ok (), m₂)) (h' : LeavesTo m₂ m₃) :
    LeavesTo m₁ m₃

theorem LeavesTo.snoc {m₁ m₂ m₃ : Machine σ} (h : m₁.LeavesTo m₂) (h' : m₂.leave = (.ok (), m₃)) :
    m₁.LeavesTo m₃ := by
  induction h with
  | refl m => exact .step h' (.refl m₃)
  | step hl _ ih => exact .step hl (ih h')

theorem leave_ok {m m' : Machine σ} (h : m.leave = (.ok (), m')) :
    m.depth = m'.depth + 1 ∧ m'.halted = m.halted := by
  unfold leave at h
  split at h
  · cases (Prod.mk.inj h).1
  · next f hf =>
    dsimp only at h
    split at h
    · obtain ⟨-, rfl⟩ := Prod.mk.inj h
      obtain ⟨fs, hfs⟩ := Array.back?_eq_some_iff.mp hf
      exact ⟨by simp [depth, hfs], rfl⟩
    · cases (Prod.mk.inj h).1

theorem LeavesTo.halted {m m' : Machine σ} (h : m.LeavesTo m') : m'.halted = m.halted := by
  induction h with
  | refl m => rfl
  | step hl _ ih => exact ih.trans (leave_ok hl).2

/-- **Unwinding** to the depth of a machine that can be reached by leaving routines gives it. -/
theorem LeavesTo.unwind {m m' : Machine σ} (h : m.LeavesTo m') :
    m.unwind (m.depth - m'.depth) = m' := by
  suffices hn : ∃ n, m.depth = m'.depth + n ∧ m.unwind n = m' by
    obtain ⟨n, hdepth, hunwind⟩ := hn
    rw [hdepth, Nat.add_sub_cancel_left, hunwind]
  induction h with
  | refl m => exact ⟨0, rfl, rfl⟩
  | step hl _ ih =>
    obtain ⟨n, hdepth, hunwind⟩ := ih
    refine ⟨n + 1, ?_, ?_⟩
    · rw [(leave_ok hl).1, hdepth, Nat.add_assoc]
    · rw [Machine.unwind, hl]
      exact hunwind

end Machine

/-! ## Runs -/

variable [Host σ]

namespace Progress

/-- What a number of further steps leads to. -/
def after : Nat → Progress σ → Progress σ
  | 0, p => p
  | n + 1, .running r => after n r.step
  | _ + 1, .finished result m => .finished result m

@[simp] theorem after_zero (p : Progress σ) : p.after 0 = p := rfl

@[simp] theorem after_finished (n : Nat) (result : Except Fault UInt32) (m : Machine σ) :
    after n (.finished result m) = .finished result m := by
  cases n <;> rfl

theorem after_add (a b : Nat) (p : Progress σ) : p.after (a + b) = (p.after a).after b := by
  induction a generalizing p with
  | zero => rw [Nat.zero_add, after_zero]
  | succ a ih =>
    rw [Nat.succ_add]
    cases p with
    | running r => exact ih r.step
    | finished result m => simp

/-- The run takes at least `n` steps. -/
def Lasts (n : Nat) (p : Progress σ) : Prop := ∀ k < n, ∃ r, p.after k = .running r

theorem Lasts.succ {n : Nat} {r : Run σ} (h : Lasts n r.step) : Lasts (n + 1) (.running r) := by
  rintro (_ | k) hk
  · exact ⟨r, rfl⟩
  · exact h k (Nat.lt_of_succ_lt_succ hk)

theorem Lasts.add {a b : Nat} {p : Progress σ} (h : Lasts a p) (h' : Lasts b (p.after a)) :
    Lasts (a + b) p := by
  intro k hk
  by_cases hka : k < a
  · exact h k hka
  · obtain ⟨r, hr⟩ := h' (k - a) (by omega)
    refine ⟨r, ?_⟩
    rw [← hr, ← after_add, Nat.add_sub_of_le (Nat.not_lt.mp hka)]

theorem Lasts.weaken {a b : Nat} {p : Progress σ} (h : Lasts a p) (hb : b ≤ a) : Lasts b p :=
  fun k hk => h k (Nat.lt_of_lt_of_le hk hb)

end Progress

/-- **A run comes to an end** when it is finished after as many steps as it may take. -/
theorem Run.finish_eq (fuel : Nat) (r : Run σ) :
    r.finish fuel =
      match (Progress.running r).after fuel with
      | .running _ => none
      | .finished result m => some (result, m) := by
  induction fuel generalizing r with
  | zero => rfl
  | succ fuel ih =>
    rw [Run.finish, Progress.after]
    cases hstep : r.step with
    | running r' => exact ih r'
    | finished result m => rw [Progress.after_finished]

theorem Run.after_of_finish {fuel : Nat} {r : Run σ} {result : Except Fault UInt32} {m : Machine σ}
    (h : r.finish fuel = some (result, m)) :
    (Progress.running r).after fuel = .finished result m := by
  rw [Run.finish_eq] at h
  split at h
  · cases h
  · next hend =>
    cases h
    exact hend

/-- What an operation of the current activation leads to. -/
def Run.transfer (r : Run σ) : Transfer σ → Progress σ
  | .next a m => .running { r with machine := m, current := a }
  | .call address args a m => r.callRoutine address args a m
  | .ret value m => r.returnValue value m
  | .halt m => .finished (.ok 0) m
  | .fault f m => .finished (.error f) m

theorem Run.step_of_fetch {r : Run σ} {op : Op}
    (h : r.current.program.ops[r.current.pc]? = some op) :
    r.step = r.transfer (op.exec { r.current with pc := r.current.pc + 1 } r.machine) := by
  rw [Run.step, h]
  rfl

/-! ## Following a computation -/

variable {α β : Type}

/-- **How a run relates to the outcome of a computation.** A value is reached in at least `w`
steps, and without an outcome the run takes at least `n` steps. -/
def Follows (w n : Nat) (p : Progress σ) (next : α → Machine σ → Progress σ) :
    Option (Except Stop α × Machine σ) → Prop
  | none => p.Lasts n
  | some (.ok a, m) => ∃ k, w ≤ k ∧ p.Lasts k ∧ p.after k = next a m
  | some (.error s, m) => ∃ k m', p.after k = .finished s.answer m' ∧ m'.LeavesTo m

namespace Follows

variable {w w' n n' : Nat} {p : Progress σ} {next : α → Machine σ → Progress σ}
  {next' : β → Machine σ → Progress σ}

theorem weaken {o : Option (Except Stop α × Machine σ)} (h : Follows w n p next o) (hw : w' ≤ w)
    (hn : n' ≤ n) : Follows w' n' p next o := by
  rcases o with _ | ⟨s | a, m⟩
  · exact Progress.Lasts.weaken h hn
  · exact h
  · obtain ⟨k, hk, hp⟩ := h
    exact ⟨k, Nat.le_trans hw hk, hp⟩

/-- A step of the run before it follows the computation. -/
theorem step {r : Run σ} {o : Option (Except Stop α × Machine σ)} (h : Follows w n r.step next o) :
    Follows (w + 1) (n + 1) (.running r) next o := by
  rcases o with _ | ⟨s | a, m⟩
  · exact Progress.Lasts.succ h
  · obtain ⟨k, m', hp, hl⟩ := h
    exact ⟨k + 1, m', hp, hl⟩
  · obtain ⟨k, hk, hlasts, hp⟩ := h
    exact ⟨k + 1, Nat.succ_le_succ hk, hlasts.succ, hp⟩

theorem pure {a : α} {m : Machine σ} (h : p = next a m) :
    Follows 0 n p next ((Pure.pure a : Eval σ α) m) :=
  ⟨0, Nat.le_refl 0, nofun, h⟩

theorem fail {f : Fault} {m : Machine σ} (h : p = .finished (.error f) m) :
    Follows w n p next (Eval.fail f m) :=
  ⟨0, m, h, .refl m⟩

theorem attempt {f : Machine σ → Except Fault α × Machine σ} {m : Machine σ}
    (h : p = match f m with
      | (.ok a, m') => next a m'
      | (.error e, m') => .finished (.error e) m') :
    Follows 0 n p next (Eval.attempt f m) := by
  unfold Eval.attempt
  rcases hf : f m with ⟨e | a, m'⟩
  · rw [hf] at h
    exact ⟨0, m', h, .refl m'⟩
  · rw [hf] at h
    exact ⟨0, Nat.le_refl 0, nofun, h⟩

theorem inspect {f : Machine σ → Except Fault α} {m : Machine σ}
    (h : p = match f m with
      | .ok a => next a m
      | .error e => .finished (.error e) m) :
    Follows 0 n p next (Eval.inspect f m) := by
  refine .attempt (h.trans ?_)
  cases f m <;> rfl

theorem update {f : Machine σ → Except Fault (α × Machine σ)} {m : Machine σ}
    (h : p = match f m with
      | .ok (a, m') => next a m'
      | .error e => .finished (.error e) m) :
    Follows 0 n p next (Eval.update f m) := by
  refine .attempt (h.trans ?_)
  rcases f m with _ | ⟨_, _⟩ <;> rfl

/-- **Computations in sequence are followed in sequence.** -/
theorem bind {x : Eval σ α} {f : α → Eval σ β} {m : Machine σ} (hx : Follows w n p next (x m))
    (hn : n ≤ w + n')
    (hf : ∀ a m', x m = some (.ok a, m') → Follows w' n' (next a m') next' (f a m')) :
    Follows (w + w') n p next' ((x >>= f) m) := by
  rw [Eval.bind_apply]
  rcases hxm : x m with _ | ⟨s | a, m'⟩
  · rw [hxm] at hx
    exact hx
  · rw [hxm] at hx
    exact hx
  · rw [hxm] at hx
    obtain ⟨k, hk, hlasts, hp⟩ := hx
    have hq := hf a m' hxm
    rw [← hp] at hq
    dsimp only
    rcases hfm : f a m' with _ | ⟨s | b, m''⟩
    · rw [hfm] at hq
      exact (hlasts.add hq).weaken (Nat.le_trans hn (Nat.add_le_add_right hk n'))
    · rw [hfm] at hq
      obtain ⟨j, end', hend, hl⟩ := hq
      exact ⟨k + j, end', by rw [Progress.after_add, hend], hl⟩
    · rw [hfm] at hq
      obtain ⟨j, hj, hlasts', hend⟩ := hq
      refine ⟨k + j, Nat.add_le_add hk hj, hlasts.add hlasts', ?_⟩
      rw [Progress.after_add, hend]

/-- Computations in sequence, without counting the steps of the first. -/
theorem seq {x : Eval σ α} {f : α → Eval σ β} {m : Machine σ} (hx : Follows 0 n p next (x m))
    (hf : ∀ a m', x m = some (.ok a, m') → Follows w n (next a m') next' (f a m')) :
    Follows w n p next' ((x >>= f) m) := by
  have h := hx.bind (Nat.le_of_eq (Nat.zero_add n).symm) hf
  rwa [Nat.zero_add] at h

/-- Computations in sequence, where the steps of the first count. -/
theorem seqAfter {x : Eval σ α} {f : α → Eval σ β} {m : Machine σ} (hx : Follows w n p next (x m))
    (hn : n ≤ w + n')
    (hf : ∀ a m', x m = some (.ok a, m') → Follows 0 n' (next a m') next' (f a m')) :
    Follows 0 n p next' ((x >>= f) m) :=
  (hx.bind hn hf).weaken (Nat.zero_le _) (Nat.le_refl n)

/-- A value that is only handed on. -/
theorem map {x : Eval σ α} {g : α → β} {m : Machine σ} (hx : Follows w n p next (x m))
    (hg : ∀ a m', next a m' = next' (g a) m') :
    Follows w n p next' ((x >>= fun a => Pure.pure (g a)) m) :=
  hx.bind (Nat.le_add_left n w) fun a m' _ => .pure (hg a m')

end Follows

/-! ## Code in a program -/

namespace Program

/-- The operations stand in the program from a position on. -/
def HasAt (p : Program) (pc : Nat) (code : List Op) : Prop := code <+: p.ops.toList.drop pc

variable {p : Program} {pc : Nat} {a b : List Op}

theorem HasAt.left (h : p.HasAt pc (a ++ b)) : p.HasAt pc a :=
  (List.prefix_append a b).trans h

theorem HasAt.right (h : p.HasAt pc (a ++ b)) : p.HasAt (pc + a.length) b := by
  obtain ⟨rest, hrest⟩ := h
  refine ⟨rest, ?_⟩
  rw [← List.drop_drop, ← hrest, List.append_assoc, List.drop_left]

theorem HasAt.fetch {op : Op} (h : p.HasAt pc (op :: a)) : p.ops[pc]? = some op := by
  obtain ⟨rest, hrest⟩ := h
  have := congrArg (·[0]?) hrest
  simpa using this.symm

end Program

/-- The activation past `count` operations that have left the values `vs`, the last on top. -/
def Activation.past (a : Activation) (count : Nat) (vs : List UInt32) : Activation :=
  { a with pc := a.pc + count, operands := vs.reverse ++ a.operands }

@[simp] theorem Activation.past_zero (a : Activation) : a.past 0 [] = a := rfl

theorem Activation.past_past (a : Activation) (j k : Nat) (us vs : List UInt32) :
    (a.past j us).past k vs = a.past (j + k) (us ++ vs) := by
  simp [past, Nat.add_assoc]

theorem Activation.pop_past (a : Activation) (count : Nat) (vs : List UInt32) (v : UInt32) :
    (a.past count (vs ++ [v])).pop = .ok (v, a.past count vs) := by
  simp [pop, past]

theorem Activation.popMany_past (a : Activation) (count : Nat) (us vs : List UInt32) :
    (a.past count (us ++ vs)).popMany vs.length = .ok (vs, a.past count us) := by
  simp [popMany, past]

theorem Run.step_past {a : Activation} {count : Nat} {vs : List UInt32} {op : Op}
    {rest : List Op} {m : Machine σ} {suspended : List Activation}
    (h : a.program.HasAt (a.pc + count) (op :: rest)) :
    Run.step ⟨m, a.past count vs, suspended⟩ =
      Run.transfer ⟨m, a.past count vs, suspended⟩ (op.exec (a.past (count + 1) vs) m) :=
  Run.step_of_fetch h.fetch

theorem Follows.op {w n count : Nat} {a : Activation} {vs : List UInt32} {op : Op}
    {rest : List Op} {m : Machine σ} {suspended : List Activation}
    {next : α → Machine σ → Progress σ} {o : Option (Except Stop α × Machine σ)}
    (h : a.program.HasAt (a.pc + count) (op :: rest))
    (ho : Follows w n
      (Run.transfer ⟨m, a.past count vs, suspended⟩ (op.exec (a.past (count + 1) vs) m)) next o) :
    Follows (w + 1) (n + 1) (.running ⟨m, a.past count vs, suspended⟩) next o := by
  refine Follows.step ?_
  rwa [Run.step_past h]

theorem Follows.firstOp {w n : Nat} {a : Activation} {op : Op} {rest : List Op} {m : Machine σ}
    {suspended : List Activation} {next : α → Machine σ → Progress σ}
    {o : Option (Except Stop α × Machine σ)} (h : a.program.HasAt a.pc (op :: rest))
    (ho : Follows w n (Run.transfer ⟨m, a, suspended⟩ (op.exec (a.past 1 []) m)) next o) :
    Follows (w + 1) (n + 1) (.running ⟨m, a, suspended⟩) next o := by
  rw [← a.past_zero] at ho ⊢
  exact Follows.op h ho

/-! ## Expressions -/

/-- **A meaning of calls that runs follow.** -/
structure Simulates (n : Nat) (invoke : UInt32 → List UInt32 → Eval σ UInt32) : Prop where
  steady : ∀ address args, (invoke address args).Steady
  follows : ∀ (r : Run σ) (caller : Activation) (address : UInt32) (args : List UInt32)
    (m : Machine σ), m.Sound →
    Follows 0 n (r.callRoutine address args caller m)
      (fun v m' => .running ⟨m', caller.push v, r.suspended⟩) (invoke address args m)

variable {n : Nat} {invoke : UInt32 → List UInt32 → Eval σ UInt32} {a : Activation}
  {suspended : List Activation}

theorem length_of_evalAll {es : List Expr} {m m' : Machine σ} {vs : List UInt32}
    (h : Expr.evalAll invoke es m = some (.ok vs, m')) : vs.length = es.length := by
  induction es generalizing m vs with
  | nil =>
    cases h
    rfl
  | cons e rest ih =>
    rw [Expr.evalAll, Eval.bind_apply] at h
    split at h
    · cases h
    · rw [Eval.bind_apply] at h
      split at h
      · cases h
      · next hrest =>
        cases h
        rw [List.length_cons, ih hrest, List.length_cons]
      · cases h
    · cases h

theorem Op.exec_callCounted_past (a : Activation) (k : Nat) (address count : UInt32)
    (m : Machine σ) :
    Op.callCounted.exec (a.past k [address, count]) m =
      match (do
        let (args, stack) ← m.stack.popArguments count
        return (address, args, a.past k [], stack)) with
      | .ok (address, args, a, stack) => .call address args a { m with stack := stack }
      | .error f => .fault f m := rfl

/-- **The operation of an expression** follows what the expression makes of its operands. -/
theorem Expr.combine_follows (hs : Simulates n invoke) (e : Expr) {k : Nat} {vs : List UInt32}
    {m : Machine σ} (hm : m.Sound) (hv : vs.length = e.children.length)
    (hop : a.program.HasAt (a.pc + k) [e.op]) :
    Follows 1 (n + 1) (.running ⟨m, a.past k vs, suspended⟩)
      (fun v m' => .running ⟨m', a.past (k + 1) [v], suspended⟩) (e.combine invoke vs m) := by
  refine Follows.op hop ?_
  cases e with
  | const value =>
    obtain rfl := List.eq_nil_of_length_eq_zero hv
    exact .pure rfl
  | readLocal var =>
    obtain rfl := List.eq_nil_of_length_eq_zero hv
    rw [Expr.combine, Eval.nullary, Eval.readLocal]
    refine .inspect ?_
    simp only [Expr.op, Op.exec, Bind.bind, Except.bind]
    cases m.currentFrame with
    | error f => rfl
    | ok frame =>
      dsimp only
      cases frame.read var.index <;> rfl
  | load width address =>
    obtain ⟨v, rfl⟩ := List.length_eq_one_iff.mp hv
    have hpop : (a.past (k + 1) [v]).pop = .ok (v, a.past (k + 1) []) := a.pop_past (k + 1) [] v
    rw [Expr.combine, Eval.unary, Eval.readMemory]
    refine .inspect ?_
    simp only [Expr.op, Op.exec, Bind.bind, Except.bind, hpop]
    cases m.memory.read width v <;> rfl
  | arith op l r =>
    obtain ⟨v, w, rfl⟩ := List.length_eq_two.mp hv
    have hpast : a.past (k + 1) [v, w] = ((a.past (k + 1) []).push v).push w := rfl
    rw [Expr.op, hpast, Op.exec_arith_push, Expr.combine, Eval.binary, Eval.arith]
    cases op.apply? v w with
    | some u => exact .pure rfl
    | none => exact .fail rfl
  | compare op l r =>
    obtain ⟨v, w, rfl⟩ := List.length_eq_two.mp hv
    exact .pure rfl
  | convert width signed value =>
    obtain ⟨v, rfl⟩ := List.length_eq_one_iff.mp hv
    exact .pure rfl
  | call address args =>
    cases vs with
    | nil => simp [Expr.children] at hv
    | cons v vs =>
      have hlen : vs.length = args.length := by simpa [Expr.children] using hv
      have hmany : (a.past (k + 1) (v :: vs)).popMany args.length = .ok (vs, a.past (k + 1) [v]) := by
        rw [← hlen]
        exact a.popMany_past (k + 1) [v] vs
      have hpop : (a.past (k + 1) [v]).pop = .ok (v, a.past (k + 1) []) := a.pop_past (k + 1) [] v
      simp only [Expr.op, Op.exec, hmany, hpop, Bind.bind, Except.bind, Expr.combine, Eval.headed]
      exact hs.follows _ _ v vs m hm
  | callCounted address count =>
    obtain ⟨v, w, rfl⟩ := List.length_eq_two.mp hv
    let r : Run σ := ⟨m, a.past k [v, w], suspended⟩
    have hpop : Follows 0 n (r.transfer (Op.callCounted.exec (a.past (k + 1) [v, w]) m))
        (fun vs m' => r.callRoutine v vs (a.past (k + 1) []) m') (Eval.popArguments w m) := by
      refine .update ?_
      rw [Op.exec_callCounted_past]
      cases m.stack.popArguments w <;> rfl
    rw [Expr.combine, Eval.binary]
    refine hpop.seq fun vs m' hm' => hs.follows r _ v vs m' ?_
    exact (Eval.popArguments_steady w m _ m' hm').sound hm
  | pop =>
    obtain rfl := List.eq_nil_of_length_eq_zero hv
    rw [Expr.combine, Eval.nullary, Eval.popValue]
    refine .update ?_
    simp only [Expr.op, Op.exec]
    cases m.stack.pop .dword <;> rfl
  | glk args =>
    have hmany : (a.past (k + 1) vs).popMany args.length = .ok (vs, a.past (k + 1) []) := by
      rw [← show vs.length = args.length from hv]
      exact a.popMany_past (k + 1) [] vs
    simp only [Expr.op, Op.exec, hmany, Expr.combine]
    refine .attempt ?_
    rcases m.dispatch vs with ⟨_ | _, _⟩ <;> rfl
  | memorySize =>
    obtain rfl := List.eq_nil_of_length_eq_zero hv
    rw [Expr.combine, Eval.nullary, Eval.memorySize]
    exact .inspect rfl

theorem Expr.evalAll_follows (hs : Simulates n invoke) {es : List Expr}
    (h : ∀ e ∈ es, ∀ (a : Activation) (m : Machine σ), m.Sound → a.program.HasAt a.pc e.flatten →
      Follows 0 (n + 1) (.running ⟨m, a, suspended⟩)
        (fun v m' => .running ⟨m', a.past e.flatten.length [v], suspended⟩) (e.eval invoke m))
    (a : Activation) {m : Machine σ} (hm : m.Sound)
    (hcode : a.program.HasAt a.pc (es.flatMap Expr.flatten)) :
    Follows 0 (n + 1) (.running ⟨m, a, suspended⟩)
      (fun vs m' => .running ⟨m', a.past (es.flatMap Expr.flatten).length vs, suspended⟩)
      (Expr.evalAll invoke es m) := by
  induction es generalizing a m with
  | nil => exact .pure rfl
  | cons e rest ih =>
    rw [Expr.evalAll]
    rw [List.flatMap_cons] at hcode
    refine (h e List.mem_cons_self a m hm hcode.left).seq fun v m₁ hv => ?_
    have hm₁ : m₁.Sound := (e.eval_steady hs.steady m _ m₁ hv).sound hm
    have hrest := ih (fun c hc => h c (List.mem_cons_of_mem e hc)) (a.past e.flatten.length [v]) hm₁
      hcode.right
    refine hrest.seq fun vs m₂ _ => .pure ?_
    rw [Activation.past_past, List.flatMap_cons, List.length_append]
    rfl

/-- **The operations of an expression follow its evaluation.** -/
theorem Expr.eval_follows (hs : Simulates n invoke) (e : Expr) (a : Activation) {m : Machine σ}
    (hm : m.Sound) (hcode : a.program.HasAt a.pc e.flatten) :
    Follows 0 (n + 1) (.running ⟨m, a, suspended⟩)
      (fun v m' => .running ⟨m', a.past e.flatten.length [v], suspended⟩) (e.eval invoke m) := by
  induction e using Expr.childInduction generalizing a m with
  | h e ih =>
    rw [e.flatten_eq] at hcode ⊢
    rw [Expr.eval_eq, List.length_append, List.length_singleton]
    refine (Expr.evalAll_follows hs (fun c hc a m => ih c hc a) a hm hcode.left).seq
      fun vs m₁ hvs => ?_
    have hsteady : (Expr.evalAll invoke e.children).Steady :=
      Expr.evalAll_steady fun c _ => c.eval_steady hs.steady
    have hm₁ : m₁.Sound := (hsteady m _ m₁ hvs).sound hm
    exact (e.combine_follows hs hm₁ (length_of_evalAll hvs) hcode.right).weaken (Nat.zero_le 1)
      (Nat.le_refl _)

/-! ## Statements -/

/-- Where a statement of the current activation leads whose code has `count` operations. -/
def Run.proceed (r : Run σ) (count : Nat) : Control → Machine σ → Progress σ
  | .next, m => .running { r with machine := m, current := r.current.past count [] }
  | .goto l, m => r.transfer (.ofActivation m (r.current.jump l))
  | .ret value, m => r.returnValue value m

/-- A statement that hands the value of an expression to one operation. -/
theorem Stmt.unary_follows (hs : Simulates n invoke) {value : Expr} {op : Op}
    {effect : UInt32 → Eval σ Unit} {m : Machine σ} (hm : m.Sound)
    (hcode : a.program.HasAt a.pc (value.flatten ++ [op]))
    (hop : ∀ v m', Follows 0 n
      (Run.transfer ⟨m', a.past value.flatten.length [v], suspended⟩
        (op.exec (a.past (value.flatten.length + 1) [v]) m'))
      (fun _ m'' => .running ⟨m'', a.past (value.flatten.length + 1) [], suspended⟩) (effect v m')) :
    Follows 1 (n + 1) (.running ⟨m, a, suspended⟩)
      (Run.proceed ⟨m, a, suspended⟩ (value.flatten ++ [op]).length)
      ((do
        let v ← value.eval invoke
        effect v
        return Control.next : Eval σ Control) m) := by
  refine (value.eval_follows hs a hm hcode.left).seq fun v m' _ => ?_
  refine (Follows.op hcode.right (hop v m')).map fun _ m'' => ?_
  rw [List.length_append, List.length_singleton]
  rfl

theorem Stmt.exec_follows (hs : Simulates n invoke) {s : Stmt} (hg : s.GuardOk) {m : Machine σ}
    (hm : m.Sound) (hcode : a.program.HasAt a.pc (s.code a.pc)) :
    Follows 1 (n + 1) (.running ⟨m, a, suspended⟩)
      (Run.proceed ⟨m, a, suspended⟩ (s.code a.pc).length) (s.exec invoke m) := by
  have hpop : ∀ k v, (a.past k [v]).pop = .ok (v, a.past k []) := fun k v => a.pop_past k [] v
  cases s with
  | label l =>
    have hcount : Follows 1 (n + 1) (.running ⟨m, a, suspended⟩)
        (fun _ m' => .running ⟨m', a.past 1 [], suspended⟩) (Eval.countStep m) := by
      refine .firstOp hcode (.attempt ?_)
      simp only [Op.exec]
      rcases m.countStep with ⟨_ | _, _⟩ <;> rfl
    exact hcount.map fun _ m' => rfl
  | eval value =>
    refine (value.eval_follows hs a hm hcode.left).seq fun v m' _ => ?_
    have hlen : ((Stmt.eval value).code a.pc).length = value.flatten.length + 1 := List.length_append
    refine Follows.op hcode.right (.pure ?_)
    rw [Op.exec, hpop, hlen]
    rfl
  | writeLocal var value =>
    refine Stmt.unary_follows hs hm hcode fun v m' => .update ?_
    simp only [Op.exec, hpop, Bind.bind, Except.bind]
    cases m'.currentFrame with
    | error f => rfl
    | ok frame =>
      dsimp only
      cases frame.write var.index v <;> rfl
  | store width address value =>
    have hcode' : a.program.HasAt a.pc (address.flatten ++ value.flatten ++ [.store width]) := hcode
    refine (address.eval_follows hs a hm hcode'.left.left).seq fun v m₁ hv => ?_
    have hm₁ : m₁.Sound := (address.eval_steady hs.steady m _ m₁ hv).sound hm
    refine (value.eval_follows hs (a.past address.flatten.length [v]) hm₁ hcode'.left.right).seq
      fun w m₂ _ => ?_
    have hop := hcode'.right
    have hlen : ((Stmt.store width address value).code a.pc).length =
        address.flatten.length + value.flatten.length + 1 := by
      rw [← List.length_append]
      exact List.length_append
    rw [Activation.past_past, hlen]
    rw [List.length_append] at hop
    have hwrite : Follows 1 (n + 1)
        (.running ⟨m₂, a.past (address.flatten.length + value.flatten.length) ([v] ++ [w]),
          suspended⟩)
        (fun _ m' => .running ⟨m', a.past (address.flatten.length + value.flatten.length + 1) [],
          suspended⟩) (Eval.writeMemory width v w m₂) := by
      refine Follows.op hop (.update ?_)
      have hpop' : ∀ k, (a.past k ([v] ++ [w])).pop = .ok (w, a.past k [v]) :=
        fun k => a.pop_past k [v] w
      simp only [Op.exec, hpop, hpop', Bind.bind, Except.bind]
      cases m₂.memory.write width v w <;> rfl
    exact hwrite.map fun _ m' => rfl
  | push value =>
    refine Stmt.unary_follows hs hm hcode fun v m' => .update ?_
    simp only [Op.exec, hpop, Bind.bind, Except.bind]
    cases m'.stack.push .dword v <;> rfl
  | copyStack count =>
    refine Stmt.unary_follows hs hm hcode fun v m' => .update ?_
    simp only [Op.exec, hpop, Bind.bind, Except.bind]
    cases m'.stack.copyDwords v <;> rfl
  | jump l => exact .firstOp hcode (.pure rfl)
  | branch cond guarded =>
    rcases hg cond guarded rfl with ⟨l, rfl⟩ | ⟨value, rfl⟩
    · have hcode' : a.program.HasAt a.pc (cond.flatten ++ [.jumpIf l]) := hcode
      refine (cond.eval_follows hs a hm hcode'.left).seq fun c m' _ => ?_
      have hlen : ((Stmt.branch cond (.jump l)).code a.pc).length = cond.flatten.length + 1 :=
        List.length_append
      rw [hlen]
      refine Follows.op hcode'.right ?_
      simp only [Op.exec, hpop, Bind.bind, Except.bind]
      by_cases hc : c = 0
      · rw [if_pos hc, if_pos hc]
        exact .pure rfl
      · rw [if_neg hc, if_neg hc]
        exact .pure rfl
    · let target := a.pc + cond.flatten.length + 1 + (value.flatten ++ [Op.ret]).length
      have hcode' : a.program.HasAt a.pc
          (cond.flatten ++ .skipUnless target :: (value.flatten ++ [.ret])) := hcode
      have hbody : a.program.HasAt (a.pc + (cond.flatten.length + 1)) (value.flatten ++ [.ret]) := by
        rw [← List.singleton_append, ← List.append_assoc] at hcode'
        simpa using hcode'.right
      have hlen : a.pc + ((Stmt.branch cond (.ret value)).code a.pc).length = target := by
        have : ((Stmt.branch cond (.ret value)).code a.pc).length =
            cond.flatten.length + ((value.flatten ++ [Op.ret]).length + 1) := List.length_append
        omega
      refine (cond.eval_follows hs a hm hcode'.left).seq fun c m' hc' => ?_
      have hm' : m'.Sound := (cond.eval_steady hs.steady m _ m' hc').sound hm
      refine Follows.op hcode'.right ?_
      simp only [Op.exec, hpop, Bind.bind, Except.bind]
      by_cases hc : c = 0
      · rw [if_pos hc, if_pos hc]
        refine .pure ?_
        simp only [Run.transfer, Run.proceed, Activation.past, hlen]
        rfl
      · rw [if_neg hc, if_neg hc]
        refine (value.eval_follows hs (a.past (cond.flatten.length + 1) []) hm' hbody.left).weaken
          (Nat.le_refl 0) (Nat.le_succ n) |>.seq fun v m'' _ => ?_
        have hret : (a.past (cond.flatten.length + 1) []).program.HasAt
            ((a.past (cond.flatten.length + 1) []).pc + value.flatten.length) [.ret] := hbody.right
        exact (Follows.op (n := n) hret (.pure rfl)).weaken (Nat.zero_le _) (Nat.le_succ n)
  | ret value =>
    refine (value.eval_follows hs a hm hcode.left).seq fun v m' _ => ?_
    refine Follows.op hcode.right (.pure ?_)
    rw [Op.exec, hpop]
    rfl
  | quit => exact .firstOp hcode ⟨0, m.halt, rfl, .refl _⟩
  | putChar value => exact Stmt.unary_follows hs hm hcode fun v m' => .update rfl
  | putNumber value => exact Stmt.unary_follows hs hm hcode fun v m' => .update rfl
  | putString address =>
    refine Stmt.unary_follows hs hm hcode fun v m' => .update ?_
    simp only [Op.exec, hpop, Bind.bind, Except.bind]
    cases m'.memory.readString v <;> rfl
  | restoreUndo =>
    have hundo : Follows 1 (n + 1) (.running ⟨m, a, suspended⟩)
        (fun _ m' => .running ⟨m', a.past 1 [], suspended⟩) (Eval.restoreUndo m) := by
      refine .firstOp hcode (.attempt ?_)
      simp only [Op.exec]
      rcases Host.restoreUndo m.host with ⟨_ | _, _⟩ <;> rfl
    exact hundo.map fun _ m' => rfl

/-! ## Bodies -/

/-- A statement goes to labels that it names only. -/
theorem Stmt.goto_of_exec {s : Stmt} {l : Label} {m m' : Machine σ}
    (h : s.exec invoke m = some (.ok (.goto l), m')) : l ∈ s.names := by
  have hbind : ∀ {α : Type} {x : Eval σ α} {f : α → Eval σ Control} {m m' : Machine σ},
      (x >>= f) m = some (.ok (.goto l), m') →
      ∃ a m₁, f a m₁ = some (.ok (.goto l), m') := by
    intro α x f m m' hx
    rw [Eval.bind_apply] at hx
    split at hx
    · cases hx
    · exact ⟨_, _, hx⟩
    · cases hx
  induction s generalizing m m' with
  | jump k =>
    cases h
    exact List.mem_singleton_self l
  | branch cond guarded ih =>
    obtain ⟨c, m₁, hc⟩ := hbind h
    split at hc
    · cases hc
    · exact ih hc
  | quit => cases h
  | label _ | eval _ | ret _ | restoreUndo =>
    obtain ⟨_, m₁, h₁⟩ := hbind h
    cases h₁
  | writeLocal _ _ | push _ | copyStack _ | putChar _ | putNumber _ | putString _ =>
    obtain ⟨_, m₁, h₁⟩ := hbind h
    obtain ⟨_, m₂, h₂⟩ := hbind h₁
    cases h₂
  | store _ _ _ =>
    obtain ⟨_, m₁, h₁⟩ := hbind h
    obtain ⟨_, m₂, h₂⟩ := hbind h₁
    obtain ⟨_, m₃, h₃⟩ := hbind h₂
    cases h₃

theorem exists_at_of_mem {stmts : List Stmt} {l : Label} (h : Stmt.label l ∈ stmts) :
    ∃ pre rest, stmts = pre ++ .label l :: rest ∧
      stmts.dropWhile (· ≠ .label l) = .label l :: rest := by
  induction stmts with
  | nil => simp at h
  | cons s stmts ih =>
    by_cases hs : s = .label l
    · exact ⟨[], stmts, by rw [hs, List.nil_append], by simp [hs]⟩
    · obtain ⟨pre, rest, hsplit, hdrop⟩ := ih ((List.mem_cons.mp h).resolve_left (Ne.symm hs))
      exact ⟨s :: pre, rest, by rw [hsplit, List.cons_append], by simpa [hs] using hdrop⟩

namespace Routine.Sound

open Program

variable {r : Routine} {pre rest : List Stmt} {s : Stmt} {l : Label}

theorem hasAt (h : r.Sound) (hb : r.body.stmts = pre ++ s :: rest) :
    r.program.HasAt (codeOf 0 pre).length (s.code (codeOf 0 pre).length) := by
  rw [HasAt, h.ops, hb, codeOf_append, List.drop_left, Nat.zero_add, codeOf]
  exact List.prefix_append _ _

theorem fetch_end (h : r.Sound) : r.program.ops[(codeOf 0 r.body.stmts).length]? = none := by
  rw [← Array.getElem?_toList, h.ops]
  exact List.getElem?_eq_none (Nat.le_refl _)

theorem start (h : r.Sound) (hb : r.body.stmts = pre ++ .label l :: rest) :
    r.program.start l = .ok (codeOf 0 pre).length := by
  -- The labels are numbered in order, so `l` counts the labels before it.
  have hl : (labelsOf pre).length = l := by
    have hlabels := h.normal.labels
    rw [hb, labelsOf_append, labelsOf_cons] at hlabels
    have hget := congrArg (·[(labelsOf pre).length]?) hlabels
    simp only [Stmt.label?, Option.toList_some, List.singleton_append] at hget
    rw [List.getElem?_append_right (Nat.le_refl _), Nat.sub_self, List.getElem?_cons_zero] at hget
    obtain ⟨hlt, hl⟩ := List.getElem?_eq_some_iff.mp hget.symm
    rwa [List.getElem_range] at hl
  have hstart : r.program.starts[l]? = some (codeOf 0 pre).length := by
    rw [← Array.getElem?_toList, h.starts, hb, startsOf_append,
      List.getElem?_append_right (by rw [length_startsOf, hl]), length_startsOf, hl, Nat.sub_self]
    simp [startsOf, Stmt.label?]
  rw [Program.start, hstart]

theorem exists_at (h : r.Sound) (hs : s ∈ r.body.stmts) (hl : l ∈ s.names) :
    ∃ pre rest, r.body.stmts = pre ++ .label l :: rest ∧ r.body.at l = .label l :: rest := by
  refine exists_at_of_mem (mem_labelsOf.mp ?_)
  rw [h.normal.labels, List.mem_range]
  exact h.normal.named s hs l hl

end Routine.Sound

/-- The activation of a routine past some of its statements. -/
def Routine.activation (r : Routine) (address : UInt32) (pre : List Stmt) : Activation :=
  { program := r.program, pc := (Program.codeOf 0 pre).length, routine := some address }

theorem Routine.activation_past (r : Routine) (address : UInt32) (pre : List Stmt) (s : Stmt) :
    (r.activation address pre).past (s.code (Program.codeOf 0 pre).length).length [] =
      r.activation address (pre ++ [s]) := by
  simp [activation, Activation.past, Program.codeOf_append, Program.codeOf]

/-- **The program of a sound routine follows its body**, from any statement on. -/
theorem Body.run_follows (hs : Simulates n invoke) {r : Routine} (hr : r.Sound) (address : UInt32)
    {k : Nat} (hk : k ≤ n + 1) {pre rest : List Stmt} (hb : r.body.stmts = pre ++ rest)
    {m : Machine σ} (hm : m.Sound) :
    Follows 0 k (.running ⟨m, r.activation address pre, suspended⟩)
      (fun v m' => Run.returnValue ⟨m', .ofRoutine r address, suspended⟩ v m')
      (r.body.run invoke k rest m) := by
  induction k generalizing pre rest m with
  | zero => exact nofun
  | succ k ih =>
    have hk' : k ≤ n + 1 := Nat.le_of_succ_le hk
    cases rest with
    | nil =>
      rw [List.append_nil] at hb
      have hstep : Run.step ⟨m, r.activation address pre, suspended⟩ =
          Run.returnValue ⟨m, .ofRoutine r address, suspended⟩ 0 m := by
        have hfetch : r.program.ops[(Program.codeOf 0 pre).length]? = none := hb ▸ hr.fetch_end
        simp only [Run.step, Routine.activation, hfetch]
        rfl
      exact (Follows.step (n := k) (.pure hstep)).weaken (Nat.zero_le 1) (Nat.le_refl _)
    | cons s rest =>
      have hmem : s ∈ r.body.stmts := by simp [hb]
      have hexec : Follows 1 (n + 1) (.running ⟨m, r.activation address pre, suspended⟩) _
          (s.exec invoke m) := Stmt.exec_follows hs (hr.normal.guards s hmem) hm (hr.hasAt hb)
      rw [Body.run]
      refine (hexec.weaken (Nat.le_refl 1) hk).seqAfter (Nat.le_of_eq (Nat.add_comm k 1))
        fun c m' hc => ?_
      have hm' : m'.Sound := (s.exec_steady hs.steady m _ m' hc).sound hm
      cases c with
      | next =>
        have hb' : r.body.stmts = (pre ++ [s]) ++ rest := by simpa using hb
        have hnext := ih hk' hb' hm'
        rw [← Routine.activation_past] at hnext
        exact hnext
      | goto l =>
        obtain ⟨pre', rest', hb', hat⟩ := hr.exists_at hmem (Stmt.goto_of_exec hc)
        have hjump : (r.activation address pre).jump l = .ok (r.activation address pre') := by
          rw [Activation.jump, Routine.activation, hr.start hb']
          rfl
        simp only [hat, Run.proceed, hjump]
        exact ih hk' hb' hm'
      | ret v => exact .pure rfl

/-! ## Calls -/

/-- **A routine that was entered is followed** up to where its value is handed on. -/
theorem leaving_follows (hs : Simulates n invoke) {m m₁ : Machine σ} {r : Routine}
    (he : m.Entered r m₁) (hm : m.Sound) (address : UInt32) {k : Nat} (hk : k ≤ n + 1) :
    Follows 0 k (.running ⟨m₁, .ofRoutine r address, suspended⟩)
      (fun v m' => Run.resume m' suspended v)
      (leaving address (r.body.run invoke k r.body.stmts) m₁) := by
  obtain ⟨hm₁, hr⟩ := he.sound hm
  have hbody := r.body.run_steady hs.steady k r.body.stmts
  have hrun : Follows 0 k (.running ⟨m₁, r.activation address [], suspended⟩) _ _ :=
    Body.run_follows hs hr address hk (List.nil_append _).symm hm₁
  rcases hx : r.body.run invoke k r.body.stmts m₁ with _ | ⟨s | v, m₂⟩
  · rw [hx] at hrun
    simp only [leaving, hx]
    exact hrun
  · rw [hx] at hrun
    obtain ⟨m₃, hleave, -⟩ := he.leave (hbody m₁ _ m₂ hx)
    rw [leaving_apply_error hx hleave]
    obtain ⟨j, m', hend, hl⟩ := hrun
    exact ⟨j, m', hend, hl.snoc hleave⟩
  · rw [hx] at hrun
    obtain ⟨m₃, hleave, -⟩ := he.leave (hbody m₁ _ m₂ hx)
    rw [leaving_apply_ok hx hleave]
    obtain ⟨j, hj, hlasts, hend⟩ := hrun
    refine ⟨j, hj, hlasts, hend.trans ?_⟩
    simp only [Run.returnValue, Activation.ofRoutine, hleave]

/-- **Calls are followed.** -/
theorem invoke_simulates (fuel : Nat) :
    Simulates (fuel - 1) (StoryVM.invoke fuel : UInt32 → List UInt32 → Eval σ UInt32) := by
  induction fuel with
  | zero => exact ⟨invoke_steady 0, fun _ _ _ _ _ _ => nofun⟩
  | succ fuel ih =>
    refine ⟨invoke_steady (fuel + 1), fun r caller address args m hm => ?_⟩
    rw [invoke_succ_apply, Run.callRoutine]
    rcases henter : m.enter address args with ⟨f | routine, m₁⟩
    · exact ⟨0, m₁, rfl, .refl m₁⟩
    · have he := (m.enter_spec address args).1 routine m₁ henter
      exact leaving_follows ih he hm address (by omega)

/-! ## The calls of a machine -/

theorem Progress.finished_unique {p : Progress σ} {j k : Nat} {result result' : Except Fault UInt32}
    {m m' : Machine σ} (h : p.after j = .finished result m) (h' : p.after k = .finished result' m') :
    result = result' ∧ m = m' := by
  have hj : p.after (j + k) = .finished result m := by rw [after_add, h, after_finished]
  have hk : p.after (j + k) = .finished result' m' := by
    rw [Nat.add_comm, after_add, h', after_finished]
  rw [hj] at hk
  cases hk
  exact ⟨rfl, rfl⟩

/-- **A run that follows an outcome settles to it.** -/
theorem Follows.settle {w : Nat} {p : Progress σ} {o : Except Stop UInt32} {m m' : Machine σ}
    (h : Follows w n p (fun v m' => Run.resume m' [] v) (some (o, m')))
    (hk : Machine.Keeps (halts o) m m') (hm : m.halted = false) :
    ∃ k result end', p.after k = .finished result end' ∧
      Machine.settle m.depth result end' = (answer o, m') := by
  have hhalted : m'.halted = halts o := by rw [hk.halted, hm, Bool.false_or]
  rcases o with s | v
  · obtain ⟨k, end', hend, hl⟩ := h
    refine ⟨k, _, end', hend, ?_⟩
    have hunwind : end'.unwind (end'.depth - m.depth) = m' := by
      rw [← hk.depth]
      exact hl.unwind
    cases s with
    | halt =>
      have hend' : end'.halted = true := hl.halted.symm.trans hhalted
      simp only [Machine.settle, Stop.answer, hend', if_true, hunwind, answer]
    | fault f => simp only [Machine.settle, Stop.answer, hunwind, answer]
  · obtain ⟨k, -, -, hend⟩ := h
    refine ⟨k, .ok v, m', hend, ?_⟩
    have hnot : m'.halted = false := hhalted
    simp [Machine.settle, hnot, answer]

/-- **The run of a routine that was entered settles to what its body comes to.** -/
theorem Machine.Entered.settles_iff {m m₁ : Machine σ} {r : Routine} (he : m.Entered r m₁)
    (hm : m.halted = false) (hs : m.Sound) (address : UInt32)
    (x : Except Fault UInt32 × Machine σ) :
    (∃ fuel result end', (Progress.running ⟨m₁, .ofRoutine r address, []⟩).after fuel =
        .finished result end' ∧ Machine.settle m.depth result end' = x) ↔
      ∃ fuel, (leaving address (r.body.run (StoryVM.invoke fuel) fuel r.body.stmts) m₁).map
        (fun p => (answer p.1, p.2)) = some x := by
  have hfollows : ∀ fuel, Follows 0 fuel (.running ⟨m₁, .ofRoutine r address, []⟩)
      (fun v m' => Run.resume m' [] v)
      (leaving address (r.body.run (StoryVM.invoke fuel) fuel r.body.stmts) m₁) :=
    fun fuel => leaving_follows (invoke_simulates fuel) he hs address (by omega)
  have hsettle : ∀ {fuel o m'},
      leaving address (r.body.run (StoryVM.invoke fuel) fuel r.body.stmts) m₁ = some (o, m') →
      ∃ k result end', (Progress.running ⟨m₁, .ofRoutine r address, []⟩).after k =
        .finished result end' ∧ Machine.settle m.depth result end' = (answer o, m') := by
    intro fuel o m' hx
    have hf := hfollows fuel
    rw [hx] at hf
    exact hf.settle (leaving_keeps he (r.body.run_steady (invoke_steady fuel) _ _) hx) hm
  constructor
  · rintro ⟨fuel, result, end', hend, rfl⟩
    refine ⟨fuel + 1, ?_⟩
    rcases hx : leaving address (r.body.run (StoryVM.invoke (fuel + 1)) (fuel + 1) r.body.stmts) m₁
      with _ | ⟨o, m'⟩
    · -- A body without an outcome keeps the run going for longer than it took.
      have hlasts := hfollows (fuel + 1)
      rw [hx] at hlasts
      obtain ⟨r', hr'⟩ := hlasts fuel (Nat.lt_succ_self fuel)
      rw [hend] at hr'
      cases hr'
    · obtain ⟨k, result', end'', hend', hs'⟩ := hsettle hx
      obtain ⟨rfl, rfl⟩ := Progress.finished_unique hend hend'
      exact congrArg some hs'.symm
  · rintro ⟨fuel, h⟩
    obtain ⟨⟨o, m'⟩, hx, rfl⟩ := Option.map_eq_some_iff.mp h
    exact hsettle hx

/-- **Runs refine trees.** On a machine that is not halted and whose cached routines were read from
memory, a call finishes with a result and a machine exactly when the meaning of the routine's body
gives that result and that machine: all of memory, the value stack, the frames, the routines, the
host, the count of blocks and the events. -/
theorem call_iff_callTree {m : Machine σ} (hm : m.halted = false) (hc : m.CachesDecoded)
    (address : UInt32) (args : List UInt32) (result : Except Fault UInt32) (m' : Machine σ) :
    (∃ fuel, m.call fuel address args = some (result, m')) ↔
      ∃ fuel, m.callTree fuel address args = some (result, m') := by
  rcases henter : m.enter address args with ⟨f | r, m₁⟩
  · have hcall : ∀ fuel, m.call fuel address args = some (.error f, m₁) := by
      intro fuel
      simp [Machine.call, hm, henter]
    have htree : ∀ fuel, m.callTree (fuel + 1) address args = some (.error f, m₁) := by
      intro fuel
      rw [Machine.callTree, invoke_succ_apply, henter]
      rfl
    constructor
    · rintro ⟨fuel, h⟩
      exact ⟨fuel + 1, by rw [htree, ← hcall fuel, h]⟩
    · rintro ⟨_ | fuel, h⟩
      · cases h
      · exact ⟨0, by rw [hcall, ← htree fuel, h]⟩
  · have he := (m.enter_spec address args).1 r m₁ henter
    have hcall : ∀ fuel, m.call fuel address args = some (result, m') ↔
        ∃ result' end', (Progress.running ⟨m₁, .ofRoutine r address, []⟩).after fuel =
          .finished result' end' ∧ Machine.settle m.depth result' end' = (result, m') := by
      intro fuel
      simp only [Machine.call, hm, henter, Machine.runFrom, Run.finish_eq]
      cases (Progress.running ⟨m₁, .ofRoutine r address, []⟩).after fuel <;> simp
    have htree : ∀ fuel, m.callTree (fuel + 1) address args =
        (leaving address (r.body.run (StoryVM.invoke fuel) fuel r.body.stmts) m₁).map
          fun p => (answer p.1, p.2) := by
      intro fuel
      rw [Machine.callTree, invoke_succ_apply, henter]
    simp only [hcall]
    rw [he.settles_iff hm hc.sound address (result, m')]
    constructor
    · rintro ⟨fuel, h⟩
      exact ⟨fuel + 1, by rw [htree, h]⟩
    · rintro ⟨_ | fuel, h⟩
      · cases h
      · exact ⟨fuel, by rw [← htree, h]⟩

/-- A routine that has another one add five to its argument, writes the sum to memory and returns it,
on a machine that has read it already. -/
def summing : Machine Silent :=
  (Machine.routineAt
    { memory := { bytes := #[0xC1, 4, 1, 0, 0, 0x81, 0x61, 0x91, 0x09, 0x13, 0, 0,
        0x42, 0x59, 0, 0x1F, 0x31, 0x09, 0, 0xC1, 4, 1, 0, 0, 0x10, 0x19, 0x08, 0, 5, 0x31, 0x08, 0] }
      stack := Stack.empty 16, ramStart := 0, host := {} } 0).2

theorem call_iff_callTree_summing :
    summing.halted = false ∧ summing.isCached 0 = true ∧ summing.CachesDecoded ∧
      ∃ m', (∃ fuel, summing.call fuel 0 [7] = some (.ok 12, m')) ∧
        (∃ fuel, summing.callTree fuel 0 [7] = some (.ok 12, m')) ∧
        m'.memory.bytes[0x1F]? = some 12 ∧ m'.steps = 2 := by
  have hhalted : summing.halted = false := by decide +kernel
  have hcaches : summing.CachesDecoded :=
    Machine.CachesDecoded.routineAt (fun a r hr => by simp at hr) 0
  have hcall : (summing.call 30 0 [7]).map
      (fun p => (p.1.toOption, p.2.memory.bytes[0x1F]?, p.2.steps)) =
        some (some 12, some 12, 2) := by
    decide +kernel
  obtain ⟨⟨f | v, m'⟩, hcall, hv⟩ := Option.map_eq_some_iff.mp hcall
  · cases hv
  · obtain ⟨hsum, hrest⟩ := Prod.mk.inj hv
    obtain ⟨hbyte, hsteps⟩ := Prod.mk.inj hrest
    obtain rfl : v = 12 := Option.some.inj hsum
    refine ⟨hhalted, by decide +kernel, hcaches, m', ⟨30, hcall⟩, ?_, hbyte, hsteps⟩
    exact (call_iff_callTree hhalted hcaches 0 [7] _ m').mp ⟨30, hcall⟩

end StoryVM
