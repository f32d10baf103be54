import StoryVM.Machine.Run
import StoryVM.Proofs.Steady

/-! # What an operation can do

There are many operations, and few things that they do. To the machine: change the host, take from
the value stack or add to it, write to memory, write a local of the innermost frame
(`Machine.Change`), count a block, or halt (`Machine.After`). To the activation: change its operands
and go on behind the operation, at a label, or at the target of a skip (`Activation.Moves`).

* `Op.exec_does`: every operation does one of these things to each of the two. What a run keeps or
  bounds is proved from here on by cases on them, not by cases on operations.
* `Machine.enter_ok`, `Machine.enter_error`, `Machine.leave_changes`, `Machine.settle_changes`: what
  entering a routine, leaving it and settling a run do to the machine. -/

namespace StoryVM

variable {σ : Type}

/-! ## The machine -/

/-- **What an operation can do to the value stack.** -/
inductive Stack.Change (s : Stack) : Stack → Prop
  | pop {w : Width} {v : UInt32} {s' : Stack} (h : s.pop w = .ok (v, s')) : s.Change s'
  | popArguments {count : UInt32} {vs : List UInt32} {s' : Stack}
    (h : s.popArguments count = .ok (vs, s')) : s.Change s'
  | push {w : Width} {v : UInt32} {s' : Stack} (h : s.push w v = .ok s') : s.Change s'
  | copy {count : UInt32} {s' : Stack} (h : s.copyDwords count = .ok s') : s.Change s'

/-- **What an operation can do to the data of a machine.** A request to the host takes its arguments
from the value stack, so both may change at once. -/
inductive Machine.Change (m : Machine σ) : Machine σ → Prop
  | host (host : σ) : m.Change { m with host := host }
  | stack {s : Stack} (hs : m.stack.Change s) (host : σ) :
    m.Change { m with stack := s, host := host }
  | memory {w : Width} {address v : UInt32} {memory : Memory}
    (h : m.memory.write w address v = .ok memory) : m.Change { m with memory := memory }
  | frame {f f' : Frame} {index : Nat} {v : UInt32} (hf : m.currentFrame = .ok f)
    (hw : f.write index v = .ok f') : m.Change (m.setCurrentFrame f')

theorem Machine.Change.refl (m : Machine σ) : m.Change m := .host m.host

/-- **The machine after an operation.** -/
inductive Machine.After (m : Machine σ) : Op → Machine σ → Prop
  | change {op : Op} {m' : Machine σ} (h : m.Change m') : m.After op m'
  | count (l : Label) : m.After (.enter l) m.countStep.2
  | halt : m.After .quit m.halt

theorem Machine.After.limits {op : Op} {m m' : Machine σ} (h : m.After op m') :
    m'.limits = m.limits := by
  cases h with
  | change h => cases h <;> rfl
  | count l =>
    unfold Machine.countStep
    dsimp only
    split
    · rfl
    · split <;> rfl
  | halt =>
    unfold Machine.halt
    split <;> rfl

/-- Only the start of a block is counted. -/
theorem Machine.After.steps {op : Op} {m m' : Machine σ} (h : m.After op m')
    (hop : ∀ l, op ≠ .enter l) : m'.steps = m.steps := by
  cases h with
  | change h => cases h <;> rfl
  | count l => exact absurd rfl (hop l)
  | halt =>
    unfold Machine.halt
    split <;> rfl

/-! ## The activation -/

/-- **Where an operation takes an activation.** -/
inductive Activation.Moves (a : Activation) (op : Op) : Activation → Prop
  | stay (operands : List UInt32) : a.Moves op { a with operands := operands }
  | jump {l : Label} {pc : Nat} (hop : op = .jump l ∨ op = .jumpIf l)
    (h : a.program.start l = .ok pc) (operands : List UInt32) :
    a.Moves op { a with pc := pc, operands := operands }
  | skip {target : Nat} (hop : op = .skipUnless target) (operands : List UInt32) :
    a.Moves op { a with pc := target, operands := operands }

/-- The same place in the same program, with other operands. -/
def Activation.Alike (a b : Activation) : Prop := ∃ operands, b = { a with operands := operands }

namespace Activation

theorem Alike.refl (a : Activation) : a.Alike a := ⟨a.operands, rfl⟩

theorem Alike.push {a b : Activation} (h : a.Alike b) (v : UInt32) : a.Alike (b.push v) := by
  obtain ⟨operands, rfl⟩ := h
  exact ⟨v :: operands, rfl⟩

theorem Alike.moves {a b : Activation} (h : a.Alike b) (op : Op) : a.Moves op b := by
  obtain ⟨operands, rfl⟩ := h
  exact .stay operands

theorem Alike.pop {a b : Activation} (h : a.Alike b) : Yields b.pop fun p => a.Alike p.2 := by
  obtain ⟨operands, rfl⟩ := h
  unfold Activation.pop
  split
  · exact .ok ⟨_, rfl⟩
  · exact .error _

theorem Alike.popMany {a b : Activation} (h : a.Alike b) (count : Nat) :
    Yields (b.popMany count) fun p => a.Alike p.2 := by
  obtain ⟨operands, rfl⟩ := h
  unfold Activation.popMany
  split
  · exact .ok ⟨_, rfl⟩
  · exact .error _

theorem Alike.jump {a b : Activation} (h : a.Alike b) {op : Op} {l : Label}
    (hop : op = .jump l ∨ op = .jumpIf l) : Yields (b.jump l) (a.Moves op) := by
  obtain ⟨operands, rfl⟩ := h
  unfold Activation.jump
  cases hstart : a.program.start l with
  | error f => exact .error f
  | ok pc => exact .ok (.jump hop hstart operands)

end Activation

/-! ## Operations -/

namespace Transfer

/-- The machine that an operation leaves behind. -/
def machine : Transfer σ → Machine σ
  | next _ m | call _ _ _ m | ret _ m | halt m | fault _ m => m

/-- The activation that goes on or waits, if there is one. -/
def activation? : Transfer σ → Option Activation
  | next a _ | call _ _ a _ => some a
  | ret _ _ | halt _ | fault _ _ => none

end Transfer

/-- **What an operation comes to**, on the side of the machine and on that of the activation. -/
structure Op.Does (op : Op) (a : Activation) (m : Machine σ) (t : Transfer σ) : Prop where
  machine : m.After op t.machine
  activation : ∀ b, t.activation? = some b → a.Moves op b
  /-- Only one operation halts. -/
  halting : ∀ m', t = .halt m' → op = .quit

namespace Op.Does

variable {op : Op} {a : Activation} {m : Machine σ}

theorem next {b : Activation} {m' : Machine σ} (hm : m.After op m') (hb : a.Moves op b) :
    op.Does a m (.next b m') :=
  ⟨hm, by rintro _ ⟨⟩; exact hb, nofun⟩

theorem call {b : Activation} {m' : Machine σ} (hm : m.After op m') (hb : a.Alike b)
    (address : UInt32) (args : List UInt32) : op.Does a m (.call address args b m') :=
  ⟨hm, by rintro _ ⟨⟩; exact hb.moves op, nofun⟩

theorem fault {m' : Machine σ} (hm : m.After op m') (f : Fault) : op.Does a m (.fault f m') :=
  ⟨hm, nofun, nofun⟩

theorem unchanged (f : Fault) : op.Does a m (.fault f m) := fault (.change (.refl m)) f

theorem ofActivation {x : Except Fault Activation} (h : Yields x (a.Moves op)) :
    op.Does a m (.ofActivation m x) := by
  cases x with
  | error f => exact unchanged f
  | ok b => exact next (.change (.refl m)) (h b rfl)

theorem ofUpdate {x : Except Fault (Activation × Machine σ)}
    (h : Yields x fun p => a.Alike p.1 ∧ m.Change p.2) : op.Does a m (.ofUpdate m x) := by
  cases x with
  | error f => exact unchanged f
  | ok p => exact next (.change (h p rfl).2) ((h p rfl).1.moves op)

theorem ofAttempt {x : Except Fault Unit × Machine σ} (h : m.After op x.2) :
    op.Does a m (.ofAttempt a x) := by
  obtain ⟨f | _, m'⟩ := x
  · exact fault h f
  · exact next h (.stay a.operands)

end Op.Does

theorem Machine.dispatch_change [Host σ] (m : Machine σ) (args : List UInt32) :
    m.Change (m.dispatch args).2 := by
  unfold Machine.dispatch
  split
  · split
    · exact .refl m
    · next vs stack hpop => exact .stack (.popArguments hpop) _
  · exact .refl m

/-- **Every operation does one of the things that operations can do.** -/
theorem Op.exec_does [Host σ] (op : Op) (a : Activation) (m : Machine σ) :
    op.Does a m (op.exec a m) := by
  have ha : a.Alike a := .refl a
  have hm : m.Change m := .refl m
  cases op with
  | const v => exact .next (.change hm) ((ha.push v).moves _)
  | readLocal index =>
    refine .ofActivation (.bind (.any _) fun f _ => .bind (.any _) fun v _ => .pure ?_)
    exact (ha.push v).moves _
  | load w =>
    refine .ofActivation (.bind ha.pop fun p hp => .bind (.any _) fun v _ => .pure ?_)
    exact (hp.push v).moves _
  | arith op =>
    refine .ofActivation (.bind ha.pop fun p hp => .bind hp.pop fun q hq => ?_)
    dsimp only
    split
    · exact .pure ((hq.push _).moves _)
    · exact .error _
  | compare op =>
    refine .ofActivation (.bind ha.pop fun p hp => .bind hp.pop fun q hq => .pure ?_)
    exact (hq.push _).moves _
  | convert w signed =>
    exact .ofActivation (.bind ha.pop fun p hp => .pure ((hp.push _).moves _))
  | call count =>
    unfold Op.exec
    dsimp only
    split
    · next address args b hb =>
      refine .call (.change hm) ?_ address args
      refine Yields.bind (Q := fun r => a.Alike r.2.2) (ha.popMany count) ?_ _ hb
      exact fun p hp => .bind hp.pop fun q hq => .pure hq
    · exact .unchanged _
  | callCounted =>
    unfold Op.exec
    dsimp only
    split
    · next address args b stack hb =>
      have hresult : a.Alike b ∧ m.stack.Change stack := by
        refine Yields.bind (Q := fun r => a.Alike r.2.2.1 ∧ m.stack.Change r.2.2.2) ha.pop ?_ _ hb
        refine fun p hp => .bind hp.pop fun q hq => ?_
        refine .bind (P := fun r => m.stack.Change r.2) (fun r hr => .popArguments hr) ?_
        exact fun r hr => .pure ⟨hq, hr⟩
      exact .call (.change (.stack hresult.2 m.host)) hresult.1 address args
    · exact .unchanged _
  | pop =>
    refine .ofUpdate (.bind (P := fun r => m.stack.Change r.2) (fun r hr => .pop hr) ?_)
    exact fun r hr => .pure ⟨ha.push r.1, .stack hr m.host⟩
  | glk count =>
    unfold Op.exec
    dsimp only
    split
    · exact .unchanged _
    · next args b hb =>
      have hchange := m.dispatch_change args
      have halike : a.Alike b := ha.popMany count _ hb
      split
      · next v m' hm' =>
        rw [hm'] at hchange
        exact .next (.change hchange) ((halike.push v).moves _)
      · next f m' hm' =>
        rw [hm'] at hchange
        exact .fault (.change hchange) f
  | memorySize => exact .next (.change hm) ((ha.push _).moves _)
  | enter l => exact .ofAttempt (.count l)
  | discard => exact .ofActivation (.bind ha.pop fun p hp => .pure (hp.moves _))
  | writeLocal index =>
    refine .ofUpdate (.bind ha.pop fun p hp => ?_)
    refine .bind (P := fun f => m.currentFrame = .ok f) (fun f hf => hf) fun f hf => ?_
    refine .bind (P := fun f' => f.write index p.1 = .ok f') (fun f' hf' => hf') fun f' hf' => ?_
    exact .pure ⟨hp, .frame hf hf'⟩
  | store w =>
    refine .ofUpdate (.bind ha.pop fun p hp => .bind hp.pop fun q hq => ?_)
    refine .bind (P := fun mem => m.memory.write w q.1 p.1 = .ok mem) (fun mem h => h) ?_
    exact fun mem hmem => .pure ⟨hq, .memory hmem⟩
  | push =>
    refine .ofUpdate (.bind ha.pop fun p hp => ?_)
    refine .bind (P := m.stack.Change) (fun s hs => .push hs) fun s hs => ?_
    exact .pure ⟨hp, .stack hs m.host⟩
  | copyStack =>
    refine .ofUpdate (.bind ha.pop fun p hp => ?_)
    refine .bind (P := m.stack.Change) (fun s hs => .copy hs) fun s hs => ?_
    exact .pure ⟨hp, .stack hs m.host⟩
  | jump l => exact .ofActivation (ha.jump (Or.inl rfl))
  | jumpIf l =>
    refine .ofActivation (.bind ha.pop fun p hp => ?_)
    dsimp only
    split
    · exact .pure (hp.moves _)
    · exact hp.jump (Or.inr rfl)
  | skipUnless target =>
    refine .ofActivation (.bind ha.pop fun p hp => .pure ?_)
    split
    · obtain ⟨operands, h⟩ := hp
      rw [h]
      exact .skip rfl operands
    · exact hp.moves _
  | ret =>
    unfold Op.exec
    dsimp only
    split
    · exact ⟨.change hm, nofun, nofun⟩
    · exact .unchanged _
  | quit => exact ⟨.halt, nofun, fun _ _ => rfl⟩
  | putChar =>
    exact .ofUpdate (.bind ha.pop fun p hp => .pure ⟨hp, .host _⟩)
  | putNumber =>
    exact .ofUpdate (.bind ha.pop fun p hp => .pure ⟨hp, .host _⟩)
  | putString =>
    exact .ofUpdate (.bind ha.pop fun p hp => .bind (.any _) fun text _ => .pure ⟨hp, .host _⟩)
  | restoreUndo => exact .ofAttempt (.change (.host _))

/-! ## Entering and leaving -/

namespace Machine

theorem routineAt_changes (m : Machine σ) (address : UInt32) :
    ∃ routines trace,
      (m.routineAt address).2 = { m with routines := routines, trace := trace } := by
  unfold routineAt
  split
  · exact ⟨m.routines, m.trace, rfl⟩
  · split
    · exact ⟨m.routines, m.trace, rfl⟩
    · exact ⟨_, _, rfl⟩

/-- **What entering a routine comes to**: there is no room for a frame, or the routine cannot be read,
or it gets a frame, or its arguments do not fit on the value stack, which gets its pointer back. -/
inductive Entry (m : Machine σ) (address : UInt32) (args : List UInt32) :
    Except Fault Routine × Machine σ → Prop
  | full (hdepth : m.limits.maxDepth ≤ m.depth) :
    Entry m address args (.error (.callDepthExceeded m.limits.maxDepth),
      m.record (.depthLimit m.limits.maxDepth address))
  | unread {m₁ : Machine σ} {f : Fault} (hdepth : m.depth < m.limits.maxDepth)
    (hat : m.routineAt address = (.error f, m₁)) : Entry m address args (.error f, m₁)
  | enters {m₁ : Machine σ} {r : Routine} (hdepth : m.depth < m.limits.maxDepth)
    (hat : m.routineAt address = (.ok r, m₁)) (stack : Stack) (f : Frame) :
    Entry m address args (.ok r, { m₁ with stack := stack }.pushFrame address args.length f)
  | declines {m₁ : Machine σ} {r : Routine} {stack : Stack} (hdepth : m.depth < m.limits.maxDepth)
    (hat : m.routineAt address = (.ok r, m₁)) (hpointer : stack.pointer = m₁.stack.pointer)
    (f : Fault) : Entry m address args (.error f, { m₁ with stack := stack })

theorem enter_entry (m : Machine σ) (address : UInt32) (args : List UInt32) :
    m.Entry address args (m.enter address args) := by
  unfold enter
  split
  · next hdepth => exact .full hdepth
  · next hdepth =>
    have hdepth := Nat.not_le.mp hdepth
    split
    · next f m₁ hat => exact .unread hdepth hat
    · next r m₁ hat =>
      dsimp only
      split
      · exact .enters hdepth hat m₁.stack _
      · have hcap := m₁.stack.capacity_pushDwords (args.reverse ++ [UInt32.ofNat args.length])
        split
        · next stack hpush => exact .enters hdepth hat stack _
        · next f stack hpush =>
          rw [hpush] at hcap
          have hle : m₁.stack.pointer ≤ stack.capacity := hcap ▸ m₁.stack.pointer_le
          obtain ⟨stack', hrestore, -, hpointer⟩ := Stack.restore_of_le hle
          rw [hrestore]
          exact .declines hdepth hat hpointer f

/-- **Entering a routine** needs room for its frame, and changes the routines read so far, the value
stack and the events besides. -/
theorem enter_ok {m m' : Machine σ} {address : UInt32} {args : List UInt32} {r : Routine}
    (h : m.enter address args = (.ok r, m')) :
    m.depth < m.limits.maxDepth ∧ ∃ routines stack f trace,
      m' = { m with
        routines := routines, stack := stack, frames := m.frames.push f, trace := trace } := by
  obtain ⟨routines, trace, hchanges⟩ := m.routineAt_changes address
  have hentry := m.enter_entry address args
  rw [h] at hentry
  cases hentry with
  | enters hdepth hat stack f =>
    rw [hat] at hchanges
    subst hchanges
    exact ⟨hdepth, _, _, _, _, rfl⟩

/-- **A routine that is not entered** leaves the frames and the stack pointer as they were. -/
theorem enter_error {m m' : Machine σ} {address : UInt32} {args : List UInt32} {f : Fault}
    (h : m.enter address args = (.error f, m')) :
    ∃ routines stack trace,
      m' = { m with routines := routines, stack := stack, trace := trace } ∧
        stack.pointer = m.stack.pointer := by
  obtain ⟨routines, trace, hchanges⟩ := m.routineAt_changes address
  have hentry := m.enter_entry address args
  rw [h] at hentry
  cases hentry with
  | full => exact ⟨_, _, _, rfl, rfl⟩
  | unread hdepth hat =>
    rw [hat] at hchanges
    subst hchanges
    exact ⟨_, _, _, rfl, rfl⟩
  | declines hdepth hat hpointer =>
    rw [hat] at hchanges
    subst hchanges
    exact ⟨_, _, _, rfl, hpointer⟩

/-- **Leaving a routine** changes the frames and the value stack only. -/
theorem leave_changes (m : Machine σ) :
    ∃ frames stack, m.leave.2 = { m with frames := frames, stack := stack } := by
  unfold leave
  split
  · exact ⟨m.frames, m.stack, rfl⟩
  · dsimp only
    split
    · exact ⟨_, _, rfl⟩
    · exact ⟨_, _, rfl⟩

theorem unwind_changes (m : Machine σ) (n : Nat) :
    ∃ frames stack trace,
      m.unwind n = { m with frames := frames, stack := stack, trace := trace } := by
  induction n generalizing m with
  | zero => exact ⟨m.frames, m.stack, m.trace, rfl⟩
  | succ n ih =>
    obtain ⟨frames, stack, hchange⟩ := m.leave_changes
    unfold unwind
    split
    · next m' hleave =>
      rw [hleave] at hchange
      obtain ⟨frames', stack', trace', hunwind⟩ := ih m'
      obtain rfl : m' = { m with frames := frames, stack := stack } := hchange
      exact ⟨frames', stack', trace', hunwind⟩
    · next f m' hleave =>
      rw [hleave] at hchange
      obtain rfl : m' = { m with frames := frames, stack := stack } := hchange
      exact ⟨frames, stack, _, rfl⟩

/-- **Settling a run** changes the frames, the value stack and the events only. -/
theorem settle_changes (m : Machine σ) (base : Nat) (result : Except Fault UInt32) :
    ∃ frames stack trace,
      (m.settle base result).2 = { m with frames := frames, stack := stack, trace := trace } := by
  unfold settle
  split
  · exact m.unwind_changes _
  · split
    · exact m.unwind_changes _
    · exact ⟨m.frames, m.stack, m.trace, rfl⟩

end Machine

end StoryVM
