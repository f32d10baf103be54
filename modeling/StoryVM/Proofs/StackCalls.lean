import StoryVM.Proofs.Balance
import StoryVM.Proofs.InlineLimit

/-! # The two ways to write a call

What a call with arguments from the value stack does, written with pops and written as a counted
call. In a run both come to the same call of the same routine if the arguments are there, and to an
underflow if not. Whole runs agree, and it cannot be observed where the reading of routines switches
from one to the other.

* `Run.after_pops`: what a run of pops does, one step at a time.
* `Run.inlined_calls`, `Run.counted_calls`: what a run comes to that gets to such a call.
* `stackCalls_agree`: the two ways to write a call agree. -/

namespace StoryVM

/-- The call with `count` arguments from the value stack, written with pops. -/
def Expr.inlinedCall (address : Expr) (count : UInt32) : Expr :=
  .call address (List.replicate count.toNat .pop)

/-- The same, written as a counted call. -/
def Expr.countedCall (address : Expr) (count : UInt32) : Expr :=
  .callCounted address (.ofBits count)

theorem Expr.flatten_inlinedCall (address : Expr) (count : UInt32) :
    (address.inlinedCall count).flatten =
      address.flatten ++ (List.replicate count.toNat Op.pop ++ [.call count.toNat]) := by
  have hpops : (List.replicate count.toNat Expr.pop).flatMap Expr.flatten =
      List.replicate count.toNat Op.pop := by
    have hpop : Expr.pop.flatten = [Op.pop] := Expr.flatten_eq _
    rw [List.flatMap_replicate, hpop, List.flatten_replicate_singleton]
  rw [Expr.flatten_eq, inlinedCall, Expr.children, List.flatMap_cons, hpops, Expr.op,
    List.length_replicate, List.append_assoc]

theorem Expr.flatten_countedCall (address : Expr) (count : UInt32) :
    (address.countedCall count).flatten = address.flatten ++ [.const count, .callCounted] := by
  have hcount : (Expr.ofBits count).flatten = [Op.const count] := by
    rw [Expr.flatten_eq, Expr.ofBits, Expr.children, Expr.op]
    simp
  rw [Expr.flatten_eq, countedCall, Expr.children, Expr.op]
  simp [hcount]

theorem Program.HasAt.tail {p : Program} {pc : Nat} {op : Op} {rest : List Op}
    (h : p.HasAt pc (op :: rest)) : p.HasAt (pc + 1) rest :=
  HasAt.right (a := [op]) h

variable {σ : Type} [Host σ]

namespace Run

/-- **The run gets to a call** of a routine, with the operations of an expression behind it. -/
def Calls (r : Run σ) (e : Expr) (address : UInt32) (args : List UInt32) (m : Machine σ) : Prop :=
  ∃ k, (Progress.running r).after k =
    r.callRoutine address args (r.current.past e.flatten.length []) m

/-- **The run ends with an underflow** on a machine that differs from `m` in the pointer of the
value stack at most. -/
def Starves (r : Run σ) (m : Machine σ) : Prop :=
  ∃ k pointer needed stack, stack.bytes = m.stack.bytes ∧ (Progress.running r).after k =
    .finished (.error (.stackUnderflow pointer needed)) { m with stack := stack }

/-- **The run is abandoned because of an underflow**, and settles to a machine at the depth that it
began at. -/
def Aborts (r : Run σ) (base : Nat) (settled : Machine σ) : Prop :=
  ∃ k pointer needed m, (Progress.running r).after k =
      .finished (.error (.stackUnderflow pointer needed)) m ∧
    Machine.settle base (.error (.stackUnderflow pointer needed)) m =
      (.error (.stackUnderflow pointer needed), settled)

/-- Leaving a routine puts the pointer of the value stack back, so that it does not matter where an
underflow has left it. -/
theorem Starves.aborts {r : Run σ} {m : Machine σ} {base : Nat} (h : r.Starves m)
    (hm : m.LeavableFrom base) (hbase : base < m.depth) :
    r.Aborts base (m.unwind (m.depth - base)) := by
  obtain ⟨k, pointer, needed, stack, hbytes, hend⟩ := h
  obtain ⟨m', -, hleave, -⟩ := hm.leave hbase
  obtain ⟨n, hn⟩ : ∃ n, m.depth - base = n + 1 := ⟨m.depth - base - 1, by omega⟩
  refine ⟨k, pointer, needed, _, hend, ?_⟩
  have hdepth : Machine.depth { m with stack := stack } = m.depth := rfl
  rw [Machine.settle, hdepth, hn, Machine.unwind, Machine.unwind, hleave,
    Machine.leave_of_bytes hbytes hleave]

variable {a : Activation} {count n : Nat} {vs : List UInt32} {rest : List Op} {m : Machine σ}
  {suspended : List Activation}

/-- A pop of a dword that is there. -/
theorem step_pop {v : UInt32} {stack : Stack}
    (h : a.program.HasAt (a.pc + count) (.pop :: rest))
    (hpop : m.stack.pop .dword = .ok (v, stack)) :
    Run.step ⟨m, a.past count vs, suspended⟩ =
      .running ⟨{ m with stack := stack }, a.past (count + 1) (vs ++ [v]), suspended⟩ := by
  have hpush : (a.past (count + 1) vs).push v = a.past (count + 1) (vs ++ [v]) := by
    simp [Activation.push, Activation.past]
  rw [Run.step_past h]
  simp only [Op.exec, hpop, Bind.bind, Except.bind, ← hpush]
  rfl

theorem after_pops {args : List UInt32} {stack : Stack}
    (h : a.program.HasAt (a.pc + count) (List.replicate n .pop ++ rest))
    (hpop : m.stack.popDwords n = .ok (args, stack)) (hle : 4 * n ≤ m.stack.pointer) :
    (Progress.running ⟨m, a.past count vs, suspended⟩).after n =
      .running ⟨{ m with stack := stack }, a.past (count + n) (vs ++ args), suspended⟩ := by
  induction n generalizing count vs m args stack with
  | zero =>
    obtain ⟨rfl, rfl⟩ := Prod.mk.inj (Except.ok.inj hpop)
    rw [List.append_nil]
    rfl
  | succ n ih =>
    obtain ⟨v, s₁, hfirst, -, hpointer⟩ := Stack.pop_dword_of_le (s := m.stack) (by omega)
    rw [Stack.popDwords_succ hfirst] at hpop
    obtain ⟨⟨us, s₂⟩, hrest, hq⟩ := map_ok_iff.mp hpop
    obtain ⟨rfl, rfl⟩ := Prod.mk.inj hq
    rw [List.replicate_succ, List.cons_append] at h
    rw [Progress.after, step_pop h hfirst, ih h.tail hrest (by simp only; omega)]
    rw [Nat.add_right_comm, List.append_assoc]
    rfl

theorem starves_pops (h : a.program.HasAt (a.pc + count) (List.replicate n .pop ++ rest))
    (hlt : m.stack.pointer < 4 * n) : Starves ⟨m, a.past count vs, suspended⟩ m := by
  induction n generalizing count vs m with
  | zero => omega
  | succ n ih =>
    rw [List.replicate_succ, List.cons_append] at h
    by_cases hlast : m.stack.pointer < 4
    · refine ⟨1, m.stack.pointer, 4, m.stack, rfl, ?_⟩
      rw [Progress.after, Run.step_past h]
      simp only [Op.exec, Stack.pop_dword_of_lt hlast, Bind.bind, Except.bind]
      rfl
    · obtain ⟨v, s₁, hfirst, hbytes, hpointer⟩ := Stack.pop_dword_of_le (Nat.not_lt.mp hlast)
      have hcode : a.program.HasAt (a.pc + (count + 1)) (List.replicate n .pop ++ rest) := h.tail
      have hrest : Starves ⟨{ m with stack := s₁ }, a.past (count + 1) (vs ++ [v]), suspended⟩
          { m with stack := s₁ } := ih hcode (by simp only; omega)
      obtain ⟨k, pointer, needed, stack, hstack, hend⟩ := hrest
      refine ⟨k + 1, pointer, needed, stack, hstack.trans hbytes, ?_⟩
      rw [Progress.after, step_pop h hfirst, hend]

variable {fuel : Nat} {address : Expr} {v c : UInt32} {m₁ : Machine σ}

/-- A run gets past the operations of an expression that has a value. -/
theorem past_eval (hm : m.Sound) (heval : address.eval (invoke fuel) m = some (.ok v, m₁))
    (hcode : a.program.HasAt a.pc address.flatten) (suspended : List Activation) :
    ∃ k, (Progress.running ⟨m, a, suspended⟩).after k =
      .running ⟨m₁, a.past address.flatten.length [v], suspended⟩ := by
  have hfollows : Follows 0 (fuel - 1 + 1) (.running ⟨m, a, suspended⟩) _
      (address.eval (invoke fuel) m) :=
    Expr.eval_follows (invoke_simulates fuel) address a hm hcode
  rw [heval] at hfollows
  obtain ⟨k, -, -, hk⟩ := hfollows
  exact ⟨k, hk⟩

/-- **A call written with pops**: where the run gets to once its address has been evaluated. -/
theorem inlined_calls (hm : m.Sound) (heval : address.eval (invoke fuel) m = some (.ok v, m₁))
    (hcode : a.program.HasAt a.pc (address.inlinedCall c).flatten) (suspended : List Activation) :
    (∀ args stack, m₁.stack.popDwords c.toNat = .ok (args, stack) →
      4 * c.toNat ≤ m₁.stack.pointer → args.length = c.toNat →
        Calls ⟨m, a, suspended⟩ (address.inlinedCall c) v args { m₁ with stack := stack }) ∧
    (m₁.stack.pointer < 4 * c.toNat → Starves ⟨m, a, suspended⟩ m₁) := by
  have hlength : (address.inlinedCall c).flatten.length = address.flatten.length + c.toNat + 1 := by
    rw [Expr.flatten_inlinedCall]
    simp [Nat.add_assoc]
  rw [Expr.flatten_inlinedCall] at hcode
  obtain ⟨k, hk⟩ := past_eval hm heval hcode.left suspended
  refine ⟨fun args stack hpop hle hargs => ?_, fun hlt => ?_⟩
  · have hcall : a.program.HasAt (a.pc + (address.flatten.length + c.toNat)) [.call c.toNat] := by
      have hlast := hcode.right.right
      rwa [List.length_replicate, Nat.add_assoc] at hlast
    have hmany := a.popMany_past (address.flatten.length + c.toNat + 1) [v] args
    have hlast := a.pop_past (address.flatten.length + c.toNat + 1) [] v
    rw [hargs] at hmany
    rw [List.nil_append] at hlast
    refine ⟨k + c.toNat + 1, ?_⟩
    rw [Progress.after_add, Progress.after_add, hk, after_pops hcode.right hpop hle, Progress.after,
      Run.step_past hcall, hlength]
    simp only [Op.exec, hmany, hlast, Bind.bind, Except.bind]
    rfl
  · have hrest : Starves ⟨m₁, a.past address.flatten.length [v], suspended⟩ m₁ :=
      starves_pops hcode.right hlt
    obtain ⟨j, pointer, needed, stack, hstack, hend⟩ := hrest
    refine ⟨k + j, pointer, needed, stack, hstack, ?_⟩
    rw [Progress.after_add, hk, hend]

/-- **A counted call**: where the run gets to once its address has been evaluated. -/
theorem counted_calls (hm : m.Sound) (heval : address.eval (invoke fuel) m = some (.ok v, m₁))
    (hcode : a.program.HasAt a.pc (address.countedCall c).flatten) (suspended : List Activation) :
    (∀ args stack, m₁.stack.popDwords c.toNat = .ok (args, stack) →
      4 * c.toNat ≤ m₁.stack.pointer →
        Calls ⟨m, a, suspended⟩ (address.countedCall c) v args { m₁ with stack := stack }) ∧
    (m₁.stack.pointer < 4 * c.toNat → Starves ⟨m, a, suspended⟩ m₁) := by
  have hlength : (address.countedCall c).flatten.length = address.flatten.length + 1 + 1 := by
    rw [Expr.flatten_countedCall]
    simp
  rw [Expr.flatten_countedCall] at hcode
  obtain ⟨k, hk⟩ := past_eval hm heval hcode.left suspended
  have hcall : a.program.HasAt (a.pc + (address.flatten.length + 1)) [.callCounted] :=
    hcode.right.tail
  -- The count is pushed, and then the call is executed.
  have hstep : (Progress.running ⟨m, a, suspended⟩).after (k + 1) =
      .running ⟨m₁, a.past (address.flatten.length + 1) [v, c], suspended⟩ := by
    rw [Progress.after_add, hk, Progress.after, Run.step_past hcode.right]
    rfl
  refine ⟨fun args stack hpop hle => ⟨k + 1 + 1, ?_⟩, fun hlt => ?_⟩
  · rw [Progress.after_add, hstep, Progress.after, Run.step_past hcall, Op.exec_callCounted_past,
      hlength, Stack.popArguments, if_pos hle, hpop]
    rfl
  · refine ⟨k + 1 + 1, m₁.stack.pointer, Stack.reportedBytes c, m₁.stack, rfl, ?_⟩
    rw [Progress.after_add, hstep, Progress.after, Run.step_past hcall, Op.exec_callCounted_past,
      Stack.popArguments, if_neg (Nat.not_le.mpr hlt)]
    rfl

end Run

/-- Both ways to write a call mean the same on one machine if the arguments are there. -/
theorem Expr.inlinedCall_eval {call : UInt32 → List UInt32 → Eval σ UInt32} {address : Expr}
    {count v : UInt32} {m m₁ : Machine σ}
    (heval : address.eval call m = some (.ok v, m₁)) (hle : 4 * count.toNat ≤ m₁.stack.pointer) :
    (address.inlinedCall count).eval call m = (address.countedCall count).eval call m := by
  obtain ⟨args, stack, hpop, -⟩ := Stack.popDwords_of_le hle
  have hpops : (Eval.popEach count.toNat >>= call v) m₁ =
      (Eval.popArguments count >>= call v) m₁ := by
    rw [Eval.bind_apply, Eval.bind_apply, Eval.popEach_of_le hpop hle,
      Eval.popArguments_of_le hpop hle]
  simp only [inlinedCall, countedCall, Expr.eval, Expr.eval_ofBits, Expr.evalAll_pops, pure_bind]
  rw [Eval.bind_apply, Eval.bind_apply, heval]
  exact hpops

/-- **The two ways to write a call with arguments from the value stack agree.**

A run that has been called at depth `base` gets to such a call and evaluates its address. If the
arguments are there then it comes to the call of the same routine with the same arguments on the
same machine, whichever way the call is written, and the meaning of the call is the same, too. If
they are not there then the run is abandoned because of an underflow, and settles to the same
machine.

Calls on twin machines, whose routines differ in such calls only, agree: if one of them comes to an
end then so does the other, with the same answer up to the two reports of one underflow, and on twin
machines again.

It makes no difference that the reading of routines switches from one way to the other at
`maxInlineArguments`: with the switch somewhere else it reads twins, and calls agree. -/
theorem stackCalls_agree :
    (∀ (base : Nat) (m m₁ : Machine σ) (a a' : Activation) (suspended suspended' : List Activation)
      (address : Expr) (count v : UInt32) (fuel : Nat),
      m.Sound → m.LeavableFrom base → base < m.depth →
      address.eval (invoke fuel) m = some (.ok v, m₁) →
      a.program.HasAt a.pc (address.inlinedCall count).flatten →
      a'.program.HasAt a'.pc (address.countedCall count).flatten →
      (4 * count.toNat ≤ m₁.stack.pointer →
        (∃ args stack, m₁.stack.popDwords count.toNat = .ok (args, stack) ∧
          args.length = count.toNat ∧
          Run.Calls ⟨m, a, suspended⟩ (address.inlinedCall count) v args
            { m₁ with stack := stack } ∧
          Run.Calls ⟨m, a', suspended'⟩ (address.countedCall count) v args
            { m₁ with stack := stack }) ∧
        (address.inlinedCall count).eval (invoke fuel) m =
          (address.countedCall count).eval (invoke fuel) m) ∧
      (m₁.stack.pointer < 4 * count.toNat →
        Run.Aborts ⟨m, a, suspended⟩ base (m₁.unwind (m₁.depth - base)) ∧
        Run.Aborts ⟨m, a', suspended'⟩ base (m₁.unwind (m₁.depth - base)))) ∧
    (∀ m m' : Machine σ, m.CachesDecoded → m.Twin m' → ∀ address args,
      SameCalls (fun fuel => m.call fuel address args) fun fuel => m'.call fuel address args) ∧
    Routine.decodeUpTo maxInlineArguments = Routine.decode ∧
    ∀ limit,
      (∀ memory address ramStart, Matched Routine.Twin
        (Routine.decode memory address ramStart)
        (Routine.decodeUpTo limit memory address ramStart)) ∧
      ∀ m : Machine σ, m.CachesDecoded → ∀ address args,
        SameCalls (fun fuel => m.call fuel address args)
          fun fuel => m.callBy (Routine.decodeUpTo limit) fuel address args := by
  refine ⟨?_, ?_, Routine.decodeUpTo_max, fun limit => ⟨Routine.decodeUpTo_twin limit, ?_⟩⟩
  · intro base m m₁ a a' suspended suspended' address count v fuel hm hleavable hbase heval hcode
      hcode'
    have hkeeps := address.eval_steady (invoke_steady fuel) m _ m₁ heval
    have hleavable₁ := hleavable.keeps hkeeps
    have hbase₁ : base < m₁.depth := hkeeps.depth ▸ hbase
    obtain ⟨hcalls, hstarves⟩ := Run.inlined_calls hm heval hcode suspended
    obtain ⟨hcalls', hstarves'⟩ := Run.counted_calls hm heval hcode' suspended'
    refine ⟨fun hle => ⟨?_, Expr.inlinedCall_eval heval hle⟩, fun hlt => ?_⟩
    · obtain ⟨args, stack, hpop, hlength⟩ := Stack.popDwords_of_le hle
      exact ⟨args, stack, hpop, hlength, hcalls args stack hpop hle hlength,
        hcalls' args stack hpop hle⟩
    · exact ⟨(hstarves hlt).aborts hleavable₁ hbase₁, (hstarves' hlt).aborts hleavable₁ hbase₁⟩
  · intro m m' hm htwin address args
    have hsound := htwin.sound hm.sound
    have hagree := htwin.sameCalls Routine.decode_twin address args
    exact hagree.congr (fun x => Machine.callBy_decode_iff hm.sound address args x)
      fun x => Machine.callBy_decode_iff hsound address args x
  · intro m hm address args
    have hagree := hm.twin.sameCalls (Routine.decodeUpTo_twin limit) address args
    exact hagree.congr (fun x => Machine.callBy_decode_iff hm.sound address args x) fun _ => Iff.rfl

/-- A machine with a routine at address 0 that pushes 5 and calls the routine at 13 with one
argument, which hands it back. -/
def passing : Machine Silent :=
  { memory := { bytes := #[0xC1, 0, 0, 0x40, 0x81, 5, 0x30, 0x11, 8, 13, 1, 0x31, 8,
      0xC1, 4, 1, 0, 0, 0x31, 9, 0] },
    stack := Stack.empty 16, ramStart := 0, host := {} }

/-- The machine `passing` in a routine without locals that has pushed 5. -/
def pushedFive : Machine Silent :=
  { passing with
    stack := ⟨#[0, 0, 0, 5, 0, 0, 0, 0, 0, 0, 0, 0, 0, 0, 0, 0], 4, by decide⟩
    frames := #[Frame.make [] 0] }

theorem stackCalls_agree_passing :
    (∃ stack, pushedFive.stack.popDwords 1 = .ok ([5], stack) ∧
      Run.Calls ⟨pushedFive, { program := .ofExpr ((Expr.ofBits 13).inlinedCall 1) }, []⟩
        ((Expr.ofBits 13).inlinedCall 1) 13 [5] { pushedFive with stack := stack } ∧
      Run.Calls ⟨pushedFive, { program := .ofExpr ((Expr.ofBits 13).countedCall 1) }, []⟩
        ((Expr.ofBits 13).countedCall 1) 13 [5] { pushedFive with stack := stack }) ∧
    (Run.Aborts ⟨pushedFive, { program := .ofExpr ((Expr.ofBits 13).inlinedCall 2) }, []⟩ 0
        (pushedFive.unwind 1) ∧
      Run.Aborts ⟨pushedFive, { program := .ofExpr ((Expr.ofBits 13).countedCall 2) }, []⟩ 0
        (pushedFive.unwind 1)) ∧
    (∃ m, passing.call 30 0 [] = some (.ok 5, m)) ∧
    ∃ fuel m, passing.callBy (Routine.decodeUpTo 0) fuel 0 [] = some (.ok 5, m) := by
  have hcached : passing.CachesDecoded := by
    intro a r hr
    simp [passing] at hr
  have hsound : pushedFive.Sound := by
    intro a r hr
    simp [pushedFive, passing] at hr
  have hleavable : pushedFive.LeavableFrom 0 :=
    Machine.leavable_iff.mp (by simp [Machine.Leavable, pushedFive, Frame.make])
  have hcode : ∀ e : Expr, (Program.ofExpr e).HasAt 0 e.flatten := fun e => by
    simp [Program.HasAt, Program.ofExpr]
  have hagree := stackCalls_agree (σ := Silent)
  refine ⟨?_, ?_, ?_⟩
  · obtain ⟨⟨args, stack, hpop, -, hcalls⟩, -⟩ := (hagree.1 0 pushedFive _
      { program := .ofExpr ((Expr.ofBits 13).inlinedCall 1) }
      { program := .ofExpr ((Expr.ofBits 13).countedCall 1) } [] [] (.ofBits 13) 1 13 0 hsound
      hleavable (by decide) rfl (hcode _) (hcode _)).1 (by decide)
    obtain ⟨rfl, rfl⟩ := Prod.mk.inj (Except.ok.inj hpop)
    exact ⟨_, hpop, hcalls⟩
  · exact (hagree.1 0 pushedFive _
      { program := .ofExpr ((Expr.ofBits 13).inlinedCall 2) }
      { program := .ofExpr ((Expr.ofBits 13).countedCall 2) } [] [] (.ofBits 13) 2 13 0 hsound
      hleavable (by decide) rfl (hcode _) (hcode _)).2 (by decide)
  · have hfive : (passing.call 30 0 []).map (·.1.toOption) = some (some 5) := by decide +kernel
    obtain ⟨⟨f | v, m⟩, hcall, hv⟩ := Option.map_eq_some_iff.mp hfive
    · cases hv
    · obtain rfl : v = 5 := Option.some.inj hv
      obtain ⟨fuel, result, m', hcall', hsame, -⟩ :=
        ((hagree.2.2.2 0).2 passing hcached 0 []).forth 30 _ m hcall
      cases hsame with
      | same => exact ⟨⟨m, hcall⟩, fuel, m', hcall'⟩

end StoryVM
