import Mathlib.Logic.Function.Iterate
import StoryVM.Proofs.Coverage

/-! # The operations of an expression

* `Expr.postorder`: the operations of an expression by recursion on the tree.
* `Task.turn`, `Task.iterate_turn`: the walk with a list of tasks, turn by turn. It is through with an
  expression after two turns for each node, not before, and has appended its postorder.
* `Op.Needs`: how many operands an operation needs. It looks at no others.
* `Run.Amid`: a run in the middle of the operations of an expression. What is needed next is above
  the operands that were there at first.
* `Expr.flatten_disciplined`: the operations of an expression are its postorder, and running them puts
  one value on the operands that were there. -/

namespace StoryVM

variable {σ : Type}

/-! ## The tree and the walk -/

/-- **The operations of an expression in postorder**: those of its operands, one after the other, then
its own. -/
def Expr.postorder (e : Expr) : List Op :=
  e.children.attach.flatMap (fun c => postorder c.1) ++ [e.op]
termination_by e.size
decreasing_by
  have := size_le_sizeAll c.2
  have := e.size_eq
  omega

theorem Expr.postorder_eq (e : Expr) : e.postorder = e.children.flatMap postorder ++ [e.op] := by
  rw [postorder, List.flatMap_subtype (g := postorder) (by intros; rfl), List.unattach_attach]

namespace Task

/-- **One turn of the walk**: the first task is worked off. -/
def turn : List Task × Array Op → List Task × Array Op
  | ([], ops) => ([], ops)
  | (visit e :: rest, ops) => (e.children.map visit ++ emit e :: rest, ops)
  | (emit e :: rest, ops) => (rest, ops.push e.op)

theorem run_turn (t : List Task × Array Op) : run (turn t).1 (turn t).2 = run t.1 t.2 := by
  obtain ⟨_ | ⟨e | e, rest⟩, ops⟩ := t
  · rfl
  · rw [turn, run.eq_2]
  · rw [turn, run.eq_3]

/-- **Tasks are worked off** in a number of turns, not fewer, and operations are appended, whatever
tasks come behind them. -/
structure Clears (n : Nat) (tasks : List Task) (new : List Op) : Prop where
  done : ∀ rest ops, turn^[n] (tasks ++ rest, ops) = (rest, ops ++ new.toArray)
  pending : ∀ rest ops, ∀ k < n, ∃ t above, (turn^[k] (tasks ++ rest, ops)).1 = t :: above ++ rest

namespace Clears

variable {n m : Nat} {a b : List Task} {new new' : List Op}

theorem nil : Clears 0 [] [] where
  done rest ops := by simp
  pending rest ops k hk := absurd hk (Nat.not_lt_zero k)

theorem append (h : Clears n a new) (h' : Clears m b new') :
    Clears (n + m) (a ++ b) (new ++ new') where
  done rest ops := by
    rw [Nat.add_comm, Function.iterate_add_apply, List.append_assoc, h.done, h'.done]
    simp
  pending rest ops k hk := by
    rw [List.append_assoc]
    by_cases hkn : k < n
    · obtain ⟨t, above, hpending⟩ := h.pending (b ++ rest) ops k hkn
      exact ⟨t, above ++ b, by simp [hpending]⟩
    · obtain ⟨j, rfl⟩ := Nat.exists_eq_add_of_le (Nat.not_lt.mp hkn)
      rw [Nat.add_comm, Function.iterate_add_apply, h.done]
      exact h'.pending rest _ j (by omega)

theorem emit (e : Expr) : Clears 1 [.emit e] [e.op] where
  done rest ops := by simp [turn]
  pending rest ops k hk := by
    obtain rfl : k = 0 := by omega
    exact ⟨.emit e, [], rfl⟩

theorem visit {e : Expr} (h : Clears n (e.children.map .visit ++ [.emit e]) new) :
    Clears (n + 1) [.visit e] new where
  done rest ops := by
    have hdone := h.done rest ops
    rw [List.append_assoc] at hdone
    rw [Function.iterate_succ_apply]
    exact hdone
  pending rest ops k hk := by
    cases k with
    | zero => exact ⟨.visit e, [], rfl⟩
    | succ k =>
      have hpending := h.pending rest ops k (by omega)
      rw [List.append_assoc] at hpending
      rw [Function.iterate_succ_apply]
      exact hpending

theorem visits {es : List Expr} (h : ∀ e ∈ es, Clears (2 * e.size) [.visit e] e.postorder) :
    Clears (2 * Expr.sizeAll es) (es.map .visit) (es.flatMap Expr.postorder) := by
  induction es with
  | nil => exact nil
  | cons e es ih =>
    have hfirst := h e List.mem_cons_self
    have hrest := ih fun c hc => h c (List.mem_cons_of_mem e hc)
    have happend := hfirst.append hrest
    rwa [← Nat.mul_add] at happend

end Clears

/-- **The walk visits an expression** in two turns for each node. -/
theorem clears_visit (e : Expr) : Clears (2 * e.size) [.visit e] e.postorder := by
  induction e using Expr.childInduction with
  | h e ih =>
    have hnode := ((Clears.visits ih).append (.emit e)).visit
    have hsize := e.size_eq
    rw [← Expr.postorder_eq] at hnode
    rwa [show 2 * Expr.sizeAll e.children + 1 + 1 = 2 * e.size by omega] at hnode

theorem run_iterate (n : Nat) (t : List Task × Array Op) :
    run (turn^[n] t).1 (turn^[n] t).2 = run t.1 t.2 := by
  induction n generalizing t with
  | zero => rfl
  | succ n ih => rw [Function.iterate_succ_apply, ih, run_turn]

/-- The walk gives what its turns give. -/
theorem run_visit (e : Expr) (ops : Array Op) : run [.visit e] ops = ops ++ e.postorder.toArray := by
  have hdone := (clears_visit e).done [] ops
  have hrun := run_iterate (2 * e.size) ([.visit e], ops)
  rw [List.append_nil] at hdone
  rw [← hrun, hdone, run]

end Task

theorem Expr.flatten_eq_postorder (e : Expr) : e.flatten = e.postorder := by
  rw [flatten, Task.run_visit]
  simp

/-! ## Operands -/

/-- What an operation for a value makes of its operands: a value, a call that will give one, or a
fault. -/
inductive Yield (σ : Type) where
  | value (v : UInt32) (m : Machine σ)
  | call (address : UInt32) (args : List UInt32) (m : Machine σ)
  | fault (f : Fault) (m : Machine σ)

/-- The outcome for an activation whose operands have been taken. -/
def Yield.on (a : Activation) : Yield σ → Transfer σ
  | value v m => .next (a.push v) m
  | call address args m => .call address args a m
  | fault f m => .fault f m

variable [Host σ]

/-- **An operation takes a number of operands** and puts one value in their place. What it comes to is
told by those operands and the machine, whatever is below them; if there are fewer, it reports that. -/
structure Op.Takes (σ : Type) [Host σ] (op : Op) (count : Nat) : Prop where
  yields : ∀ (vs : List UInt32) (m : Machine σ), vs.length = count →
    ∃ out : Yield σ, ∀ a : Activation,
      op.exec { a with operands := vs ++ a.operands } m = out.on a
  missing : ∀ (a : Activation) (m : Machine σ), a.operands.length < count →
    ∃ d, (d = .operandMissing ∨ d = .operandsMissing) ∧ op.exec a m = .fault (.defect d) m

namespace Op.Takes

theorem nullary {op : Op} (h : ∀ m : Machine σ, ∃ out : Yield σ, ∀ a, op.exec a m = out.on a) :
    op.Takes σ 0 where
  yields vs m hvs := by
    obtain rfl := List.length_eq_zero_iff.mp hvs
    exact h m
  missing a m ha := absurd ha (Nat.not_lt_zero _)

theorem unary {op : Op}
    (h : ∀ x (m : Machine σ), ∃ out : Yield σ, ∀ a : Activation,
      op.exec { a with operands := x :: a.operands } m = out.on a)
    (hmissing : ∀ (a : Activation) (m : Machine σ), a.operands = [] →
      op.exec a m = .fault (.defect .operandMissing) m) : op.Takes σ 1 where
  yields vs m hvs := by
    obtain ⟨x, rfl⟩ := List.length_eq_one_iff.mp hvs
    exact h x m
  missing a m ha :=
    ⟨_, .inl rfl, hmissing a m (List.length_eq_zero_iff.mp (Nat.lt_one_iff.mp ha))⟩

theorem binary {op : Op}
    (h : ∀ x y (m : Machine σ), ∃ out : Yield σ, ∀ a : Activation,
      op.exec { a with operands := y :: x :: a.operands } m = out.on a)
    (hmissing : ∀ (a : Activation) (m : Machine σ), a.operands = [] ∨ (∃ y, a.operands = [y]) →
      op.exec a m = .fault (.defect .operandMissing) m) : op.Takes σ 2 where
  yields vs m hvs := by
    obtain ⟨y, x, rfl⟩ := List.length_eq_two.mp hvs
    exact h x y m
  missing a m ha := by
    refine ⟨_, .inl rfl, hmissing a m ?_⟩
    rcases Nat.lt_or_eq_of_le (Nat.le_of_lt_succ ha) with hnone | hone
    · exact .inl (List.length_eq_zero_iff.mp (Nat.lt_one_iff.mp hnone))
    · exact .inr (List.length_eq_one_iff.mp hone)

end Op.Takes

theorem Activation.pop_nil {a : Activation} (h : a.operands = []) :
    a.pop = .error (.defect .operandMissing) := by
  rw [pop, h]

theorem Activation.pop_cons {a : Activation} {v : UInt32} {rest : List UInt32}
    (h : a.operands = v :: rest) : a.pop = .ok (v, { a with operands := rest }) := by
  rw [pop, h]

theorem Activation.popMany_append (a : Activation) (vs : List UInt32) :
    Activation.popMany { a with operands := vs ++ a.operands } vs.length = .ok (vs.reverse, a) := by
  simp [popMany]

/-- A value that is worked out on a machine that stays as it is. -/
def Yield.ofValue (m : Machine σ) : Except Fault UInt32 → Yield σ
  | .ok v => .value v m
  | .error f => .fault f m

omit [Host σ] in
theorem Yield.on_ofValue (a : Activation) (m : Machine σ) (x : Except Fault UInt32) :
    (ofValue m x).on a = Transfer.ofActivation m (x >>= fun v => .ok (a.push v)) := by
  cases x <;> rfl

namespace Expr

/-- **The operation of an expression** takes as many operands as the expression has. -/
theorem op_takes (e : Expr) : e.op.Takes σ e.children.length := by
  cases e with
  | const v => exact .nullary fun m => ⟨.value v.toUInt32 m, fun a => rfl⟩
  | memorySize => exact .nullary fun m => ⟨.value _ m, fun a => rfl⟩
  | readLocal var =>
    refine .nullary fun m => ⟨.ofValue m (m.currentFrame >>= (·.read var.index)), fun a => ?_⟩
    rw [Yield.on_ofValue, bind_assoc]
    rfl
  | pop =>
    refine .nullary fun m => ?_
    rcases hpop : m.stack.pop .dword with f | ⟨v, stack⟩
    · exact ⟨.fault f m, fun a => by simp only [op, Op.exec, hpop]; rfl⟩
    · exact ⟨.value v { m with stack := stack }, fun a => by simp only [op, Op.exec, hpop]; rfl⟩
  | load w address =>
    refine .unary (fun x m => ⟨.ofValue m (m.memory.read w x), fun a => ?_⟩) fun a m ha => ?_
    · rw [Yield.on_ofValue]
      rfl
    · simp only [op, Op.exec, Activation.pop_nil ha]
      rfl
  | convert w signed value =>
    refine .unary (fun x m => ⟨.value (w.convert signed x) m, fun a => rfl⟩) fun a m ha => ?_
    simp only [op, Op.exec, Activation.pop_nil ha]
    rfl
  | arith o l r =>
    refine .binary (fun x y m => ?_) fun a m ha => ?_
    · rcases hvalue : o.apply? x y with - | v
      · refine ⟨.fault .divisionByZero m, fun a => ?_⟩
        simp only [op, Op.exec, Activation.pop, Bind.bind, Except.bind, hvalue]
        rfl
      · refine ⟨.value v m, fun a => ?_⟩
        simp only [op, Op.exec, Activation.pop, Bind.bind, Except.bind, hvalue]
        rfl
    · rcases ha with ha | ⟨y, ha⟩
      · simp only [op, Op.exec, Activation.pop_nil ha]
        rfl
      · simp only [op, Op.exec, Activation.pop_cons ha]
        rfl
  | compare o l r =>
    refine .binary (fun x y m => ⟨.value (o.apply x y) m, fun a => rfl⟩) fun a m ha => ?_
    rcases ha with ha | ⟨y, ha⟩
    · simp only [op, Op.exec, Activation.pop_nil ha]
      rfl
    · simp only [op, Op.exec, Activation.pop_cons ha]
      rfl
  | callCounted address count =>
    refine .binary (fun x y m => ?_) fun a m ha => ?_
    · rcases hargs : m.stack.popArguments y with f | ⟨args, stack⟩
      · refine ⟨.fault f m, fun a => ?_⟩
        simp only [op, Op.exec, Activation.pop, Bind.bind, Except.bind, hargs]
        rfl
      · refine ⟨.call x args { m with stack := stack }, fun a => ?_⟩
        simp only [op, Op.exec, Activation.pop, Bind.bind, Except.bind, hargs]
        rfl
    · rcases ha with ha | ⟨y, ha⟩
      · simp only [op, Op.exec, Activation.pop_nil ha]
        rfl
      · simp only [op, Op.exec, Activation.pop_cons ha]
        rfl
  | glk args =>
    constructor
    · intro vs m hvs
      rcases hanswer : m.dispatch vs.reverse with ⟨f | v, m'⟩
      · refine ⟨.fault f m', fun a => ?_⟩
        simp only [op, Op.exec, ← show vs.length = args.length from hvs, Activation.popMany_append,
          hanswer]
        rfl
      · refine ⟨.value v m', fun a => ?_⟩
        simp only [op, Op.exec, ← show vs.length = args.length from hvs, Activation.popMany_append,
          hanswer]
        rfl
    · intro a m ha
      refine ⟨_, .inr rfl, ?_⟩
      have hshort : ¬ args.length ≤ a.operands.length := Nat.not_le.mpr ha
      simp only [op, Op.exec, Activation.popMany, if_neg hshort]
  | call address args =>
    constructor
    · intro vs m hvs
      -- The address is below the arguments.
      obtain ⟨us, x, rfl⟩ : ∃ us x, vs = us ++ [x] := by
        have hne : vs ≠ [] := by
          rintro rfl
          cases hvs
        exact ⟨_, _, (List.dropLast_concat_getLast hne).symm⟩
      have hus : us.length = args.length := by
        simpa [children] using hvs
      refine ⟨.call x us.reverse m, fun a => ?_⟩
      have hpop := Activation.popMany_append { a with operands := x :: a.operands } us
      simp only [op, Op.exec, ← hus, List.append_assoc, List.singleton_append, hpop]
      rfl
    · intro a m ha
      by_cases hshort : args.length ≤ a.operands.length
      · have hexact : a.operands.drop args.length = [] :=
          List.drop_eq_nil_of_le (Nat.le_of_lt_succ ha)
        refine ⟨_, .inl rfl, ?_⟩
        simp only [op, Op.exec, Activation.popMany, if_pos hshort, hexact]
        rfl
      · refine ⟨_, .inr rfl, ?_⟩
        simp only [op, Op.exec, Activation.popMany, if_neg hshort]
        rfl

end Expr

/-! ## Heights -/

/-- **Operations of expressions lead from one number of operands to another**, and each finds as many
as it takes. -/
inductive Op.Raises : Nat → List Op → Nat → Prop
  | nil (h : Nat) : Raises h [] h
  | cons (e : Expr) {h k : Nat} {rest : List Op} (hrest : Raises (h + 1) rest k) :
    Raises (h + e.children.length) (e.op :: rest) k

namespace Op.Raises

theorem append {i j k : Nat} {a b : List Op} (h : Raises i a j) (h' : Raises j b k) :
    Raises i (a ++ b) k := by
  induction h with
  | nil => exact h'
  | cons e _ ih => exact .cons e (ih h')

theorem flatMap {es : List Expr} (h : ∀ e ∈ es, ∀ i, Raises i e.postorder (i + 1)) (i : Nat) :
    Raises i (es.flatMap Expr.postorder) (i + es.length) := by
  induction es generalizing i with
  | nil => exact .nil i
  | cons e es ih =>
    have hfirst := h e List.mem_cons_self i
    have hrest := ih (fun c hc => h c (List.mem_cons_of_mem e hc)) (i + 1)
    rw [show i + 1 + es.length = i + (e :: es).length by simp; omega] at hrest
    exact hfirst.append hrest

end Op.Raises

/-- **The operations of an expression** add one to the number of operands. -/
theorem Expr.raises_postorder (e : Expr) (i : Nat) : Op.Raises i e.postorder (i + 1) := by
  induction e using Expr.childInduction generalizing i with
  | h e ih =>
    rw [e.postorder_eq]
    exact (Op.Raises.flatMap (fun c hc => ih c hc) i).append (.cons e (.nil _))

/-! ## Runs -/

theorem Run.step_finished {r : Run σ} {result : Except Fault UInt32} {m : Machine σ}
    (h : r.step = .finished result m) :
    (∃ f, result = .error f) ∨ m.halted = true ∨ r.suspended = [] := by
  have hreturn : ∀ v m', r.returnValue v m' = .finished result m →
      (∃ f, result = .error f) ∨ m.halted = true ∨ r.suspended = [] := by
    intro v m' hv
    have hresume : ∀ m'', resume m'' r.suspended v = .finished result m → r.suspended = [] := by
      intro m'' hr
      cases hs : r.suspended with
      | nil => rfl
      | cons caller rest =>
        rw [hs] at hr
        cases hr
    unfold returnValue at hv
    split at hv
    · exact .inr (.inr (hresume _ hv))
    · split at hv
      · cases hv
        exact .inl ⟨_, rfl⟩
      · exact .inr (.inr (hresume _ hv))
  cases hop : r.current.program.ops[r.current.pc]? with
  | none =>
    rw [Run.step, hop] at h
    exact hreturn _ _ h
  | some op =>
    rw [Run.step_of_fetch hop] at h
    have hdoes := op.exec_does { r.current with pc := r.current.pc + 1 } r.machine
    cases ht : op.exec { r.current with pc := r.current.pc + 1 } r.machine with
    | next b m' =>
      rw [ht] at h
      cases h
    | call address args b m' =>
      rw [ht, Run.transfer, Run.callRoutine] at h
      split at h
      · cases h
        exact .inl ⟨_, rfl⟩
      · cases h
    | ret v m' =>
      rw [ht] at h
      exact hreturn _ _ h
    | halt m' =>
      have hquit := hdoes.halting m' ht
      rw [hquit] at ht
      cases ht
      rw [hquit] at h
      cases h
      exact .inr (.inl r.machine.halted_halt)
    | fault f m' =>
      rw [ht] at h
      cases h
      exact .inl ⟨f, rfl⟩

/-- **A run in the middle of operations** that an activation came to with the others waiting: it
executes one of them, which finds the operands that it takes above those that were there, or it waits
for the result of a call that one of them made. -/
inductive Run.Amid (a : Activation) (suspended : List Activation) (code : List Op) : Run σ → Prop
  | executes {m : Machine σ} {op : Op} {count : Nat} {vs : List UInt32} (done rest : List Op)
    (hcode : code = done ++ op :: rest) (htakes : op.Takes σ count) (hcount : count ≤ vs.length) :
    Amid a suspended code ⟨m, a.past done.length vs, suspended⟩
  | waits {m : Machine σ} {current : Activation} {vs : List UInt32} (above : List Activation)
    (done rest : List Op) (op : Op) (hcode : code = done ++ op :: rest) :
    Amid a suspended code ⟨m, current, above ++ a.past (done.length + 1) vs :: suspended⟩

/-- A run in the middle of operations or past them, with the number of operands that it has come
to. -/
inductive Run.Within (a : Activation) (suspended : List Activation) (code : List Op) : Run σ → Prop
  | executes {m : Machine σ} {vs : List UInt32} (done rest : List Op) (hcode : code = done ++ rest)
    (hraises : Op.Raises vs.length rest 1) :
    Within a suspended code ⟨m, a.past done.length vs, suspended⟩
  | waits {m : Machine σ} {current : Activation} {vs : List UInt32} (above : List Activation)
    (done rest : List Op) (op : Op) (hcode : code = done ++ op :: rest)
    (hraises : Op.Raises (vs.length + 1) rest 1) :
    Within a suspended code ⟨m, current, above ++ a.past (done.length + 1) vs :: suspended⟩

namespace Run.Within

variable {a : Activation} {suspended : List Activation} {code : List Op} {r : Run σ}

theorem past_or_amid (h : r.Within a suspended code) :
    (∃ m v, r = ⟨m, a.past code.length [v], suspended⟩) ∨ r.Amid a suspended code := by
  cases h with
  | @executes m vs done rest hcode hraises =>
    generalize hlength : vs.length = height at hraises
    cases hraises with
    | nil =>
      obtain ⟨v, rfl⟩ := List.length_eq_one_iff.mp hlength
      rw [hcode, List.append_nil]
      exact .inl ⟨m, v, rfl⟩
    | cons e hrest => exact .inr (.executes done _ hcode e.op_takes (by omega))
  | waits above done rest op hcode hraises => exact .inr (.waits above done rest op hcode)

/-- **A step** of a run that is not past the operations yet. -/
theorem step (ha : a.program.HasAt a.pc code) (h : r.Within a suspended code)
    (hpast : ∀ m v, r ≠ ⟨m, a.past code.length [v], suspended⟩) :
    (∃ r' : Run σ, r.step = .running r' ∧ r'.Within a suspended code) ∨
      ∃ result m, r.step = .finished result m ∧ ((∃ f, result = .error f) ∨ m.halted = true) := by
  cases h with
  | @executes m vs done rest hcode hraises =>
    generalize hlength : vs.length = height at hraises
    cases hraises with
    | nil =>
      obtain ⟨v, rfl⟩ := List.length_eq_one_iff.mp hlength
      rw [hcode, List.append_nil] at hpast
      exact absurd rfl (hpast m v)
    | @cons e h k rest hrest =>
      obtain ⟨vs, us, rfl, hus⟩ : ∃ vs₀ us, vs = vs₀ ++ us ∧ us.length = e.children.length := by
        refine ⟨vs.take h, vs.drop h, (List.take_append_drop h vs).symm, ?_⟩
        rw [List.length_drop]
        omega
      have hvs : vs.length = h := by
        rw [List.length_append] at hlength
        omega
      obtain ⟨out, hout⟩ := e.op_takes.yields us.reverse m (by rwa [List.length_reverse])
      have hexec : e.op.exec (a.past (done.length + 1) (vs ++ us)) m =
          out.on (a.past (done.length + 1) vs) := by
        rw [← hout]
        simp [Activation.past]
      rw [hcode] at ha
      rw [Run.step_past ha.right, hexec]
      cases out with
      | value v m' =>
        have hnext : (a.past (done.length + 1) vs).push v =
            a.past (done ++ [e.op]).length (vs ++ [v]) := by
          simp [Activation.past, Activation.push]
        refine .inl ⟨_, rfl, ?_⟩
        dsimp only
        rw [hnext]
        refine .executes _ rest (by simp [hcode]) ?_
        rwa [List.length_append, hvs]
      | call address args m' =>
        simp only [Yield.on, Run.transfer, Run.callRoutine]
        rcases m'.enter address args with ⟨f | routine, m''⟩
        · exact .inr ⟨_, _, rfl, .inl ⟨f, rfl⟩⟩
        · exact .inl ⟨_, rfl, .waits [] done rest e.op hcode (by rwa [hvs])⟩
      | fault f m' => exact .inr ⟨_, _, rfl, .inl ⟨f, rfl⟩⟩
  | @waits m current vs above done rest op hcode hraises =>
    -- The activation that waits is only touched by the step that hands a value to it.
    cases hstep : Run.step ⟨m, current, above ++ a.past (done.length + 1) vs :: suspended⟩ with
    | finished result m' =>
      refine .inr ⟨result, m', rfl, ?_⟩
      rcases Run.step_finished hstep with hf | hm | hnil
      · exact .inl hf
      · exact .inr hm
      · simp at hnil
    | running r' =>
      refine .inl ⟨r', rfl, ?_⟩
      obtain ⟨m', current', suspended'⟩ := r'
      rcases Run.step_stack hstep with ⟨-, b, new, -, -, -, hstack⟩ | ⟨caller, others, v, hs, hstack⟩
      · cases new with
        | nil =>
          obtain ⟨rfl, rfl⟩ := List.cons.inj hstack
          exact .waits above done rest op hcode hraises
        | cons c new =>
          obtain ⟨rfl, rfl⟩ := List.cons.inj hstack
          have hwaits : Run.Within a suspended code
              ⟨m', current', (new ++ b :: above) ++ a.past (done.length + 1) vs :: suspended⟩ :=
            .waits (new ++ b :: above) done rest op hcode hraises
          rwa [List.append_assoc] at hwaits
      · obtain ⟨rfl, rfl⟩ := List.cons.inj hstack
        cases above with
        | nil =>
          obtain ⟨rfl, rfl⟩ := List.cons.inj hs
          have hnext : (a.past (done.length + 1) vs).push v =
              a.past (done ++ [op]).length (vs ++ [v]) := by
            simp [Activation.past, Activation.push]
          rw [hnext]
          refine .executes _ rest (by simp [hcode]) ?_
          rwa [List.length_append]
        | cons c above =>
          obtain ⟨rfl, rfl⟩ := List.cons.inj hs
          exact .waits above done rest op hcode hraises

end Run.Within

/-- After a number of steps a run is in the middle of operations. -/
def Progress.AmidAt (p : Progress σ) (a : Activation) (suspended : List Activation) (code : List Op)
    (n : Nat) : Prop :=
  ∃ r, p.after n = .running r ∧ r.Amid a suspended code

/-- After a number of steps a run is past operations, with one value more than before. -/
def Progress.PastAt (p : Progress σ) (a : Activation) (suspended : List Activation) (code : List Op)
    (n : Nat) : Prop :=
  ∃ m v, p.after n = .running ⟨m, a.past code.length [v], suspended⟩

/-- After a number of steps a run has been abandoned. -/
def Progress.AbandonedAt (p : Progress σ) (n : Nat) : Prop :=
  ∃ result m, p.after n = .finished result m ∧ ((∃ f, result = .error f) ∨ m.halted = true)

/-- **Steps** of a run that came to operations. -/
theorem Run.Within.after {a : Activation} {suspended : List Activation} {code : List Op} {r : Run σ}
    (ha : a.program.HasAt a.pc code) (h : r.Within a suspended code) (n : Nat) :
    (∀ j ≤ n, (Progress.running r).AmidAt a suspended code j) ∨
      ∃ k ≤ n, (∀ j < k, (Progress.running r).AmidAt a suspended code j) ∧
        ((Progress.running r).PastAt a suspended code k ∨ (Progress.running r).AbandonedAt k) := by
  induction n generalizing r with
  | zero =>
    rcases h.past_or_amid with ⟨m, v, rfl⟩ | hamid
    · exact .inr ⟨0, Nat.le_refl 0, nofun, .inl ⟨m, v, rfl⟩⟩
    · refine .inl fun j hj => ?_
      obtain rfl : j = 0 := by omega
      exact ⟨r, rfl, hamid⟩
  | succ n ih =>
    by_cases hpast : ∃ m v, r = ⟨m, a.past code.length [v], suspended⟩
    · obtain ⟨m, v, rfl⟩ := hpast
      exact .inr ⟨0, Nat.zero_le _, nofun, .inl ⟨m, v, rfl⟩⟩
    have hamid : r.Amid a suspended code := h.past_or_amid.resolve_left hpast
    have hfirst : (Progress.running r).AmidAt a suspended code 0 := ⟨r, rfl, hamid⟩
    rcases h.step ha (fun m v hr => hpast ⟨m, v, hr⟩) with
      ⟨r', hstep, hwithin⟩ | ⟨result, m, hstep, hend⟩
    · -- What holds of the run from its second moment on holds of the run.
      have hlater : ∀ k, (Progress.running r).after (k + 1) = (Progress.running r').after k := by
        intro k
        rw [Progress.after, hstep]
      have hamidAt : ∀ k, (∀ j < k, (Progress.running r').AmidAt a suspended code j) →
          ∀ j < k + 1, (Progress.running r).AmidAt a suspended code j := by
        rintro k hk (_ | j) hj
        · exact hfirst
        · obtain ⟨r'', hr'', hamid'⟩ := hk j (by omega)
          exact ⟨r'', (hlater j).trans hr'', hamid'⟩
      rcases ih hwithin with hall | ⟨k, hk, hbefore, hend⟩
      · refine .inl fun j hj => ?_
        exact hamidAt (n + 1) (fun i hi => hall i (by omega)) j (by omega)
      · refine .inr ⟨k + 1, by omega, hamidAt k hbefore, ?_⟩
        rcases hend with ⟨m, v, hp⟩ | ⟨result, m, hp, hend⟩
        · exact .inl ⟨m, v, (hlater k).trans hp⟩
        · exact .inr ⟨result, m, (hlater k).trans hp, hend⟩
    · refine .inr ⟨1, by omega, fun j hj => ?_, .inr ⟨result, m, hstep, hend⟩⟩
      obtain rfl : j = 0 := by omega
      exact hfirst

/-- **The operations of an expression** are its postorder, and they keep to the operands above those
that were there. The walk is through after two turns for each node, not before. Whatever is on the
stack of operands, a run that comes to these operations is in the middle of them, each finding what it
takes above what was there, until it is past them with one value more, or is abandoned. -/
theorem Expr.flatten_disciplined (e : Expr) :
    (∀ ops : Array Op,
      (∀ n < 2 * e.size, (Task.turn^[n] ([.visit e], ops)).1 ≠ []) ∧
        Task.turn^[2 * e.size] ([.visit e], ops) = ([], ops ++ e.postorder.toArray) ∧
          Task.run [.visit e] ops = ops ++ e.postorder.toArray) ∧
      (Program.ofExpr e).ops.toList = e.postorder ++ [.ret] ∧
      ∀ (a : Activation), a.program.HasAt a.pc e.postorder →
        ∀ (m : Machine σ) (suspended : List Activation) (n : Nat),
          (∀ j ≤ n, (Progress.running ⟨m, a, suspended⟩).AmidAt a suspended e.postorder j) ∨
            ∃ k ≤ n,
              (∀ j < k, (Progress.running ⟨m, a, suspended⟩).AmidAt a suspended e.postorder j) ∧
              ((Progress.running ⟨m, a, suspended⟩).PastAt a suspended e.postorder k ∨
                (Progress.running ⟨m, a, suspended⟩).AbandonedAt k) := by
  refine ⟨fun ops => ⟨fun n hn hnil => ?_, ?_, Task.run_visit e ops⟩, ?_, ?_⟩
  · obtain ⟨t, above, hpending⟩ := (Task.clears_visit e).pending [] ops n hn
    rw [List.append_nil] at hpending
    rw [hnil] at hpending
    cases hpending
  · exact (Task.clears_visit e).done [] ops
  · rw [Program.ofExpr, e.flatten_eq_postorder]
  · intro a ha m suspended n
    have hraises : Op.Raises ([] : List UInt32).length e.postorder 1 := e.raises_postorder 0
    have hstart : (⟨m, a.past 0 [], suspended⟩ : Run σ).Within a suspended e.postorder :=
      .executes [] e.postorder rfl hraises
    exact hstart.after ha n

/-- A call of the routine at address 0 with the size of memory, plus one. -/
def counting : Expr := .plus (.call (.const 0) [.memorySize]) (.const 1)

theorem Expr.flatten_disciplined_counting :
    ∃ (a : Activation) (m : Machine Silent),
      a.operands = [5, 6] ∧ a.program.HasAt a.pc counting.postorder ∧
      ∃ k ≤ 20, (Progress.running ⟨m, a, []⟩).PastAt a [] counting.postorder k := by
  let a : Activation := { program := { ops := counting.flatten.toArray }, operands := [5, 6] }
  let m : Machine Silent :=
    { memory := { bytes := #[0xC1, 0, 0, 0x31, 1, 7] }, stack := Stack.empty 16, ramStart := 0,
      host := {} }
  have hcode : a.program.HasAt a.pc counting.postorder := by
    rw [← counting.flatten_eq_postorder]
    exact List.prefix_refl _
  have hend : (match (Progress.running ⟨m, a, []⟩).after 20 with
      | .finished (.ok _) m' => !m'.halted
      | _ => false) = true := by
    decide +kernel
  refine ⟨a, m, rfl, hcode, ?_⟩
  rcases (counting.flatten_disciplined (σ := Silent)).2.2 a hcode m [] 20 with
    hall | ⟨k, hk, -, hpast | ⟨result, m', hp, hresult⟩⟩
  · obtain ⟨r, hr, -⟩ := hall 20 (Nat.le_refl 20)
    rw [hr] at hend
    cases hend
  · exact ⟨k, hk, hpast⟩
  · rw [← Nat.add_sub_of_le hk, Progress.after_add, hp, Progress.after_finished] at hend
    rcases hresult with ⟨f, rfl⟩ | hhalted
    · cases hend
    · cases result with
      | error f => cases hend
      | ok v => simp [hhalted] at hend

end StoryVM
