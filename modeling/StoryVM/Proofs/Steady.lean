import Mathlib.Tactic.Common
import StoryVM.Proofs.Decoded
import StoryVM.Proofs.TreeSemantics

/-! # What a run leaves alone

Whatever a routine does, the machine it hands back has the same frames, up to the values of locals,
the same capacity of the value stack and the same size of memory, and the routines it has read in
the meantime are sound (`Machine.Keeps`). It is halted afterwards only if the run halted it.

* `Eval.Steady`: a computation whose machines are related by `Keeps`, whatever its outcome.
* `Machine.Entered`, `Entered.leave`: a routine that was entered can be left again, and what was on
  the frames before is there afterwards.
* `invoke_steady`: calls are steady. -/

namespace StoryVM

/-! ## Frames and stacks -/

/-- The base of a frame and the widths of its locals. -/
def Frame.shape (f : Frame) : Nat × List Width := (f.base, f.slots.toList.map Slot.width)

theorem Frame.shape_make (locals : List Local) (base : Nat) :
    (Frame.make locals base).shape = (base, locals.map Local.width) := by
  simp [shape, make, Slot.holding]

theorem Frame.shape_write {f f' : Frame} {index : Nat} {v : UInt32}
    (h : f.write index v = .ok f') : f'.shape = f.shape := by
  unfold write at h
  split at h
  · next slot hslot =>
    obtain rfl := Except.ok.inj h
    have hget : f.slots.toList[index]? = some slot := by rwa [Array.getElem?_toList]
    obtain ⟨hlt, hslot⟩ := List.getElem?_eq_some_iff.mp hget
    simp only [shape, Slot.holding, Array.toList_setIfInBounds, List.map_set, Prod.mk.injEq,
      true_and]
    rw [← hslot, ← List.getElem_map Slot.width (h := by simpa using hlt), List.set_getElem_self]
  · cases h

theorem Frame.map_width_fill (slots : List Slot) (args : List UInt32) :
    (fill slots args).map Slot.width = slots.map Slot.width := by
  induction slots generalizing args with
  | nil => cases args <;> rfl
  | cons slot slots ih =>
    cases args with
    | nil => rfl
    | cons v args => simp [fill, Slot.holding, ih]

theorem Frame.shape_passArguments (f : Frame) (args : List UInt32) :
    (f.passArguments args).shape = f.shape := by
  simp [shape, passArguments, map_width_fill]

namespace Stack

theorem capacity_pushBytes {s s' : Stack} {new : List UInt8} (h : s.pushBytes new = .ok s') :
    s'.capacity = s.capacity := by
  unfold pushBytes at h
  split at h
  · obtain rfl := Except.ok.inj h
    exact Bytes.size_splice _ _ _
  · cases h

theorem capacity_pop {s s' : Stack} {w : Width} {v : UInt32} (h : s.pop w = .ok (v, s')) :
    s'.capacity = s.capacity := by
  unfold pop at h
  split at h
  · cases h
    rfl
  · cases h

theorem capacity_copyDwords {s s' : Stack} {count : UInt32} (h : s.copyDwords count = .ok s') :
    s'.capacity = s.capacity := by
  unfold copyDwords at h
  dsimp only at h
  split at h
  · exact capacity_pushBytes h
  · cases h

theorem capacity_popDwords {n : Nat} {s s' : Stack} {vs : List UInt32}
    (h : s.popDwords n = .ok (vs, s')) : s'.capacity = s.capacity := by
  induction n generalizing s vs with
  | zero =>
    cases h
    rfl
  | succ n ih =>
    simp only [popDwords, Bind.bind, Except.bind] at h
    split at h
    · cases h
    · next p hp =>
      split at h
      · cases h
      · next q hq =>
        cases h
        exact (ih hq).trans (capacity_pop hp)

theorem capacity_popArguments {s s' : Stack} {count : UInt32} {vs : List UInt32}
    (h : s.popArguments count = .ok (vs, s')) : s'.capacity = s.capacity := by
  unfold popArguments at h
  split at h
  · exact capacity_popDwords h
  · cases h

theorem capacity_pushDwords (s : Stack) (vs : List UInt32) :
    (s.pushDwords vs).2.capacity = s.capacity := by
  induction vs generalizing s with
  | nil => rfl
  | cons v rest ih =>
    unfold pushDwords
    split
    · next s' hs => exact (ih s').trans (capacity_pushBytes hs)
    · rfl

theorem restore_of_le {s : Stack} {pointer : Nat} (h : pointer ≤ s.capacity) :
    ∃ s', s.restore pointer = .ok s' ∧ s'.capacity = s.capacity ∧ s'.pointer = pointer := by
  unfold restore
  rw [dif_pos h]
  exact ⟨_, rfl, rfl, rfl⟩

end Stack

theorem Memory.size_write {m m' : Memory} {w : Width} {address value : UInt32}
    (h : m.write w address value = .ok m') : m'.size = m.size := by
  unfold write at h
  split at h
  · split at h
    · cases h
    · obtain rfl := Except.ok.inj h
      exact Bytes.size_splice _ _ _
  · cases h

/-! ## Machines -/

namespace Machine

variable {σ : Type}

/-- All routines read so far are sound. -/
def Sound (m : Machine σ) : Prop := ∀ (a : UInt32) r, m.routines[a]? = some r → r.Sound

/-- All routines that the machine has cached were read from some memory. -/
def CachesDecoded (m : Machine σ) : Prop :=
  ∀ (a : UInt32) r, m.routines[a]? = some r → ∃ memory address ramStart,
    Routine.decode memory address ramStart = .ok r

theorem CachesDecoded.sound {m : Machine σ} (h : m.CachesDecoded) : m.Sound := by
  intro a r hr
  obtain ⟨memory, address, ramStart, hdecode⟩ := h a r hr
  exact Routine.decode_sound hdecode

/-- **What a run leaves alone.** The flag says whether the run halts the machine. -/
structure Keeps (halts : Bool) (m m' : Machine σ) : Prop where
  frames : m'.frames.toList.map Frame.shape = m.frames.toList.map Frame.shape
  capacity : m'.stack.capacity = m.stack.capacity
  memory : m'.memory.size = m.memory.size
  halted : m'.halted = (m.halted || halts)
  sound : m.Sound → m'.Sound

theorem Keeps.refl (m : Machine σ) : Keeps false m m :=
  ⟨rfl, rfl, rfl, by simp, id⟩

theorem Keeps.trans {halts : Bool} {m₁ m₂ m₃ : Machine σ} (h : Keeps false m₁ m₂)
    (h' : Keeps halts m₂ m₃) : Keeps halts m₁ m₃ where
  frames := h'.frames.trans h.frames
  capacity := h'.capacity.trans h.capacity
  memory := h'.memory.trans h.memory
  halted := by rw [h'.halted, h.halted, Bool.or_false]
  sound hm := h'.sound (h.sound hm)

theorem Keeps.depth {halts : Bool} {m m' : Machine σ} (h : Keeps halts m m') :
    m'.depth = m.depth := by
  simpa [Machine.depth] using congrArg List.length h.frames

/-- A change of the value stack that keeps its capacity. -/
theorem keeps_stack (m : Machine σ) {s : Stack} (h : s.capacity = m.stack.capacity) :
    Keeps false m { m with stack := s } :=
  ⟨rfl, h, rfl, by simp, id⟩

theorem keeps_record (m : Machine σ) (e : Event) : Keeps false m (m.record e) :=
  ⟨rfl, rfl, rfl, by simp [record], id⟩

theorem keeps_halt (m : Machine σ) : Keeps true m m.halt := by
  unfold halt
  split
  · exact ⟨rfl, rfl, rfl, by simp, id⟩
  · exact ⟨rfl, rfl, rfl, by simp, id⟩

theorem keeps_countStep (m : Machine σ) : Keeps false m m.countStep.2 := by
  have hstep : Keeps false m { m with steps := m.steps + 1 } := ⟨rfl, rfl, rfl, by simp, id⟩
  unfold countStep
  dsimp only
  split
  · exact hstep
  · split
    · exact hstep.trans (keeps_record _ _)
    · exact hstep

theorem keeps_setCurrentFrame {m : Machine σ} {f f' : Frame} (h : m.currentFrame = .ok f)
    (hf : f'.shape = f.shape) : Keeps false m (m.setCurrentFrame f') := by
  refine ⟨?_, rfl, rfl, by simp [setCurrentFrame], id⟩
  unfold currentFrame at h
  split at h
  · next g hg =>
    obtain rfl := Except.ok.inj h
    obtain ⟨fs, hfs⟩ := Array.back?_eq_some_iff.mp hg
    simp [setCurrentFrame, hfs, hf]
  · cases h

theorem keeps_dispatch [Host σ] (m : Machine σ) (args : List UInt32) :
    Keeps false m (m.dispatch args).2 := by
  unfold dispatch
  split
  · split
    · exact Keeps.refl m
    · next glkArgs stack hpop =>
      exact ⟨rfl, Stack.capacity_popArguments hpop, rfl, by simp, id⟩
  · exact Keeps.refl m

/-! ## Locals -/

/-- **The innermost frame has the given locals.** -/
def HasLocals (locals : List Local) (m : Machine σ) : Prop :=
  ∃ f, m.frames.back? = some f ∧ f.slots.toList.map Slot.width = locals.map Local.width

theorem back?_shape (m : Machine σ) :
    m.frames.back?.map Frame.shape = (m.frames.toList.map Frame.shape).getLast? := by
  rw [List.getLast?_map, Array.getLast?_toList]

theorem HasLocals.keeps {halts : Bool} {locals : List Local} {m m' : Machine σ}
    (h : m.HasLocals locals) (hk : Keeps halts m m') : m'.HasLocals locals := by
  obtain ⟨f, hf, hwidths⟩ := h
  have hback : m'.frames.back?.map Frame.shape = some f.shape := by
    rw [back?_shape, hk.frames, ← back?_shape, hf]
    rfl
  obtain ⟨g, hg, hshape⟩ := Option.map_eq_some_iff.mp hback
  exact ⟨g, hg, (congrArg Prod.snd hshape).trans hwidths⟩

/-- A declared local has a slot of its width. -/
theorem HasLocals.slot {locals : List Local} {m : Machine σ} (h : m.HasLocals locals) {var : Local}
    (hv : locals[var.index]? = some var) :
    ∃ f slot, m.currentFrame = .ok f ∧ f.slots[var.index]? = some slot ∧ slot.width = var.width := by
  obtain ⟨f, hf, hwidths⟩ := h
  have hget := congrArg (·[var.index]?) hwidths
  simp only [List.getElem?_map, hv, Option.map_some, Array.getElem?_toList] at hget
  obtain ⟨slot, hslot, hwidth⟩ := Option.map_eq_some_iff.mp hget
  refine ⟨f, slot, ?_, hslot, hwidth⟩
  rw [currentFrame, hf]

/-! ## Entering and leaving -/

/-- **A machine on which a routine was just entered.** -/
structure Entered (m : Machine σ) (r : Routine) (m' : Machine σ) : Prop where
  frames : ∃ f : Frame, m'.frames = m.frames.push f ∧
    f.shape = (m.stack.pointer, r.body.locals.map Local.width)
  capacity : m'.stack.capacity = m.stack.capacity
  memory : m'.memory.size = m.memory.size
  halted : m'.halted = m.halted
  sound : m.Sound → m'.Sound ∧ r.Sound

theorem Entered.hasLocals {m m' : Machine σ} {r : Routine} (h : m.Entered r m') :
    m'.HasLocals r.body.locals := by
  obtain ⟨f, hframes, hshape⟩ := h.frames
  exact ⟨f, by rw [hframes, Array.back?_push], congrArg Prod.snd hshape⟩

/-- The routines after getting one are those from before and the one that is read. -/
theorem cached_of_routineAt {m : Machine σ} {address a : UInt32} {r : Routine}
    (h : (m.routineAt address).2.routines[a]? = some r) :
    m.routines[a]? = some r ∨ a = address ∧ Routine.decode m.memory address m.ramStart = .ok r := by
  unfold routineAt at h
  split at h
  · exact .inl h
  · split at h
    · exact .inl h
    · next r' hr' =>
      simp only [record, Std.TreeMap.getElem?_insert] at h
      split at h
      · next heq =>
        obtain rfl : address = a := Std.LawfulEqCmp.eq_of_compare heq
        exact .inr ⟨rfl, hr'.trans (congrArg Except.ok (Option.some.inj h))⟩
      · exact .inl h

theorem routineAt_spec (m : Machine σ) (address : UInt32) :
    (∀ r m', m.routineAt address = (.ok r, m') → Keeps false m m' ∧ m'.frames = m.frames ∧
      m'.stack = m.stack ∧ (m.Sound → r.Sound)) ∧
    ∀ f m', m.routineAt address = (.error f, m') →
      m' = m ∧ Routine.decode m.memory address m.ramStart = .error f := by
  unfold routineAt
  rw [Std.TreeMap.get?_eq_getElem?]
  cases hget : m.routines[address]? with
  | some r =>
    refine ⟨fun r' m' h => ?_, fun f m' h => ?_⟩
    · obtain ⟨h₁, rfl⟩ := Prod.mk.inj h
      obtain rfl := Except.ok.inj h₁
      exact ⟨Keeps.refl m, rfl, rfl, fun hm => hm address r hget⟩
    · cases (Prod.mk.inj h).1
  | none =>
    cases hdec : Routine.decode m.memory address m.ramStart with
    | error f =>
      refine ⟨fun r' m' h => ?_, fun f' m' h => ?_⟩
      · cases (Prod.mk.inj h).1
      · obtain ⟨h₁, rfl⟩ := Prod.mk.inj h
        exact ⟨rfl, congrArg _ (Except.error.inj h₁)⟩
    | ok r =>
      refine ⟨fun r' m' h => ?_, fun f' m' h => ?_⟩
      · obtain ⟨h₁, rfl⟩ := Prod.mk.inj h
        obtain rfl := Except.ok.inj h₁
        have hr : r.Sound := Routine.decode_sound hdec
        refine ⟨⟨rfl, rfl, rfl, by simp [record], fun hm a r' ha => ?_⟩, rfl, rfl, fun _ => hr⟩
        simp only [record, Std.TreeMap.getElem?_insert] at ha
        split at ha
        · cases ha
          exact hr
        · exact hm a r' ha
      · cases (Prod.mk.inj h).1

theorem CachesDecoded.routineAt {m : Machine σ} (h : m.CachesDecoded) (address : UInt32) :
    (m.routineAt address).2.CachesDecoded := by
  intro a r hr
  rcases cached_of_routineAt hr with hold | ⟨-, hdecode⟩
  · exact h a r hold
  · exact ⟨m.memory, address, m.ramStart, hdecode⟩

/-- **Entering a routine** adds its frame, or leaves the machine alone. -/
theorem enter_spec (m : Machine σ) (address : UInt32) (args : List UInt32) :
    (∀ r m', m.enter address args = (.ok r, m') → m.Entered r m') ∧
    ∀ f m', m.enter address args = (.error f, m') → Keeps false m m' := by
  unfold enter
  split
  · refine ⟨fun r m' h => (nomatch (Prod.mk.inj h).1), fun f m' h => ?_⟩
    obtain ⟨-, rfl⟩ := Prod.mk.inj h
    exact keeps_record _ _
  · obtain ⟨hok, herr⟩ := m.routineAt_spec address
    split
    · next f₁ m₁ hat =>
      obtain ⟨rfl, -⟩ := herr f₁ m₁ hat
      refine ⟨fun r m' h => (nomatch (Prod.mk.inj h).1), fun f m' h => ?_⟩
      obtain ⟨-, rfl⟩ := Prod.mk.inj h
      exact Keeps.refl m₁
    · next r₁ m₁ hat =>
      obtain ⟨hkeep, hframes, hstack, hsound⟩ := hok r₁ m₁ hat
      have hhalted : m₁.halted = m.halted := by simpa using hkeep.halted
      dsimp only
      split
      · refine ⟨fun r m' h => ?_, fun f m' h => (nomatch (Prod.mk.inj h).1)⟩
        obtain ⟨h₁, rfl⟩ := Prod.mk.inj h
        obtain rfl := Except.ok.inj h₁
        refine ⟨⟨_, by rw [← hframes]; rfl, ?_⟩, hkeep.capacity, hkeep.memory, hhalted,
          fun hm => ⟨hkeep.sound hm, hsound hm⟩⟩
        rw [Frame.shape_passArguments, Frame.shape_make, hstack]
      · have hcap := m₁.stack.capacity_pushDwords (args.reverse ++ [UInt32.ofNat args.length])
        split
        · next stack hpush =>
          rw [hpush] at hcap
          refine ⟨fun r m' h => ?_, fun f m' h => (nomatch (Prod.mk.inj h).1)⟩
          obtain ⟨h₁, rfl⟩ := Prod.mk.inj h
          obtain rfl := Except.ok.inj h₁
          refine ⟨⟨_, by rw [← hframes]; rfl, ?_⟩, hcap.trans hkeep.capacity, hkeep.memory, hhalted,
            fun hm => ⟨hkeep.sound hm, hsound hm⟩⟩
          rw [Frame.shape_make, hstack]
        · next f₂ stack hpush =>
          rw [hpush] at hcap
          have hle : m₁.stack.pointer ≤ stack.capacity := hcap ▸ m₁.stack.pointer_le
          obtain ⟨stack', hrestore, hcap', -⟩ := Stack.restore_of_le hle
          rw [hrestore]
          refine ⟨fun r m' h => (nomatch (Prod.mk.inj h).1), fun f m' h => ?_⟩
          obtain ⟨-, rfl⟩ := Prod.mk.inj h
          exact hkeep.trans (keeps_stack m₁ (hcap'.trans hcap))

/-- **Leaving a routine** whose frame's base lies on the stack. -/
theorem leave_of_push {m : Machine σ} {fs : Array Frame} {f : Frame} (hf : m.frames = fs.push f)
    (hb : f.base ≤ m.stack.capacity) :
    ∃ stack, m.leave = (.ok (), { m with frames := fs, stack := stack }) ∧
      stack.capacity = m.stack.capacity := by
  obtain ⟨stack, hrestore, hcap, -⟩ := Stack.restore_of_le hb
  refine ⟨stack, ?_, hcap⟩
  simp [leave, hf, hrestore]

/-- **A routine that was entered can be left**, and then the frames are those from before. -/
theorem Entered.leave {halts : Bool} {m m₁ m₂ : Machine σ} {r : Routine} (h : m.Entered r m₁)
    (hk : Keeps halts m₁ m₂) : ∃ m₃, m₂.leave = (.ok (), m₃) ∧ Keeps halts m m₃ := by
  obtain ⟨f, hframes, hshape⟩ := h.frames
  have hmap := hk.frames
  rw [hframes, Array.toList_push, List.map_append, List.map_singleton] at hmap
  obtain ⟨fs, gs, hsplit, hfs, hgs⟩ := List.map_eq_append_iff.mp hmap
  obtain ⟨g, rfl, hg⟩ := List.map_eq_singleton_iff.mp hgs
  have hpush : m₂.frames = fs.toArray.push g := by
    apply Array.ext'
    simp [hsplit]
  have hbase : g.base ≤ m₂.stack.capacity := by
    have : g.base = m.stack.pointer := congrArg Prod.fst (hg.trans hshape)
    rw [this, hk.capacity, h.capacity]
    exact m.stack.pointer_le
  obtain ⟨stack, hleave, hcap⟩ := leave_of_push hpush hbase
  refine ⟨_, hleave, hfs, ?_, hk.memory.trans h.memory, ?_, fun hm => hk.sound (h.sound hm).1⟩
  · exact hcap.trans (hk.capacity.trans h.capacity)
  · exact hk.halted.trans (by rw [h.halted])

end Machine

/-! ## Steady computations -/

/-- Whether the outcome is that the machine was halted. -/
def halts {α : Type} : Except Stop α → Bool
  | .error .halt => true
  | _ => false

open Machine (Keeps)

namespace Eval

variable {σ α β : Type}

/-- **A steady computation** leaves alone what a run leaves alone, whatever its outcome. -/
def Steady (x : Eval σ α) : Prop := ∀ m o m', x m = some (o, m') → Keeps (halts o) m m'

theorem Steady.pure (a : α) : Steady (Pure.pure a : Eval σ α) := by
  rintro m o m' ⟨⟩
  exact Keeps.refl m

theorem Steady.fail (f : Fault) : Steady (fail f : Eval σ α) := by
  rintro m o m' ⟨⟩
  exact Keeps.refl m

theorem Steady.timeout : Steady (timeout : Eval σ α) := by
  rintro m o m' ⟨⟩

theorem Steady.halt : Steady (halt : Eval σ α) := by
  rintro m o m' ⟨⟩
  exact m.keeps_halt

theorem Steady.attempt {f : Machine σ → Except Fault α × Machine σ}
    (h : ∀ m, Keeps false m (f m).2) : Steady (attempt f) := by
  intro m o m' hm
  have hk := h m
  unfold Eval.attempt at hm
  split at hm
  · next a m₁ hf =>
    cases hm
    rwa [hf] at hk
  · next e m₁ hf =>
    cases hm
    rwa [hf] at hk

theorem Steady.inspect (f : Machine σ → Except Fault α) : Steady (inspect f) :=
  Steady.attempt fun m => Keeps.refl m

theorem Steady.update {f : Machine σ → Except Fault (α × Machine σ)}
    (h : ∀ m, Yields (f m) fun p => Keeps false m p.2) : Steady (update f) := by
  refine Steady.attempt fun m => ?_
  split
  · next a m' hf => exact h m (a, m') hf
  · exact Keeps.refl m

theorem Steady.bind {x : Eval σ α} {f : α → Eval σ β} (hx : x.Steady) (hf : ∀ a, (f a).Steady) :
    Steady (x >>= f) := by
  intro m o m' hm
  rw [bind_apply] at hm
  split at hm
  · cases hm
  · next a m₁ hx₁ => exact (hx m (.ok a) m₁ hx₁).trans (hf a m₁ o m' hm)
  · next s m₁ hx₁ =>
    have hk := hx m (.error s) m₁ hx₁
    cases hm
    cases s with
    | halt => exact hk
    | fault f => exact hk

theorem Steady.nullary {x : Eval σ α} (hx : x.Steady) (vs : List UInt32) :
    (nullary x vs).Steady := by
  unfold Eval.nullary
  split
  · exact hx
  · exact .fail _

theorem Steady.unary {f : UInt32 → Eval σ α} (hf : ∀ v, (f v).Steady) (vs : List UInt32) :
    (unary f vs).Steady := by
  unfold Eval.unary
  split
  · exact hf _
  · exact .fail _

theorem Steady.binary {f : UInt32 → UInt32 → Eval σ α} (hf : ∀ l r, (f l r).Steady)
    (vs : List UInt32) : (binary f vs).Steady := by
  unfold Eval.binary
  split
  · exact hf _ _
  · exact .fail _

theorem Steady.headed {f : UInt32 → List UInt32 → Eval σ α} (hf : ∀ v vs, (f v vs).Steady)
    (vs : List UInt32) : (headed f vs).Steady := by
  unfold Eval.headed
  split
  · exact hf _ _
  · exact .fail _

theorem readLocal_steady (index : Nat) : Steady (readLocal index : Eval σ UInt32) :=
  Steady.inspect _

theorem writeLocal_steady (index : Nat) (v : UInt32) :
    Steady (writeLocal index v : Eval σ Unit) := by
  refine Steady.update fun m => ?_
  refine .bind (P := fun f => m.currentFrame = .ok f) (fun f hf => hf) fun f hf => ?_
  refine .bind (P := fun f' => f'.shape = f.shape) (fun f' => Frame.shape_write) fun f' hf' => ?_
  exact .pure (Machine.keeps_setCurrentFrame hf hf')

theorem readMemory_steady (w : Width) (a : UInt32) : Steady (readMemory w a : Eval σ UInt32) :=
  Steady.inspect _

theorem writeMemory_steady (w : Width) (a v : UInt32) :
    Steady (writeMemory w a v : Eval σ Unit) := by
  refine Steady.update fun m => ?_
  refine .bind (P := fun mem => mem.size = m.memory.size) (fun mem => Memory.size_write) ?_
  exact fun mem hmem => .pure ⟨rfl, rfl, hmem, by simp, id⟩

theorem memorySize_steady : Steady (memorySize : Eval σ UInt32) := Steady.inspect _

theorem popValue_steady : Steady (popValue : Eval σ UInt32) := by
  refine Steady.update fun m => ?_
  refine .bind (P := fun p => p.2.capacity = m.stack.capacity)
    (fun p hp => Stack.capacity_pop hp) ?_
  exact fun p hp => .pure (m.keeps_stack hp)

theorem popArguments_steady (count : UInt32) :
    Steady (popArguments count : Eval σ (List UInt32)) := by
  refine Steady.update fun m => ?_
  refine .bind (P := fun p => p.2.capacity = m.stack.capacity)
    (fun p hp => Stack.capacity_popArguments hp) ?_
  exact fun p hp => .pure (m.keeps_stack hp)

theorem pushValue_steady (v : UInt32) : Steady (pushValue v : Eval σ Unit) := by
  refine Steady.update fun m => ?_
  refine .bind (P := fun s => s.capacity = m.stack.capacity)
    (fun s hs => Stack.capacity_pushBytes hs) ?_
  exact fun s hs => .pure (m.keeps_stack hs)

theorem copyStack_steady (count : UInt32) : Steady (copyStack count : Eval σ Unit) := by
  refine Steady.update fun m => ?_
  refine .bind (P := fun s => s.capacity = m.stack.capacity)
    (fun s hs => Stack.capacity_copyDwords hs) ?_
  exact fun s hs => .pure (m.keeps_stack hs)

theorem countStep_steady : Steady (countStep : Eval σ Unit) :=
  Steady.attempt Machine.keeps_countStep

theorem arith_steady (op : ArithOp) (l r : UInt32) : Steady (arith op l r : Eval σ UInt32) := by
  unfold arith
  split
  · exact .pure _
  · exact .fail _

variable [Host σ]

theorem dispatch_steady (vs : List UInt32) : Steady (dispatch vs : Eval σ UInt32) :=
  Steady.attempt fun m => m.keeps_dispatch vs

theorem putChar_steady (code : UInt32) : Steady (putChar code : Eval σ Unit) :=
  Steady.update fun _ => .pure ⟨rfl, rfl, rfl, by simp, id⟩

theorem putNumber_steady (v : UInt32) : Steady (putNumber v : Eval σ Unit) :=
  Steady.update fun _ => .pure ⟨rfl, rfl, rfl, by simp, id⟩

theorem putString_steady (a : UInt32) : Steady (putString a : Eval σ Unit) := by
  refine Steady.update fun m => .bind (.any _) fun text _ => ?_
  exact .pure ⟨rfl, rfl, rfl, by simp, id⟩

theorem restoreUndo_steady : Steady (restoreUndo : Eval σ Unit) :=
  Steady.attempt fun _ => ⟨rfl, rfl, rfl, by simp, id⟩

end Eval

open Eval

variable {σ : Type}

theorem leaving_apply_ok {address v : UInt32} {x : Eval σ UInt32} {m m₁ m₂ : Machine σ}
    (hx : x m = some (.ok v, m₁)) (hl : m₁.leave = (.ok (), m₂)) :
    leaving address x m = some (.ok v, m₂.record (.left address v)) := by
  simp only [leaving, hx, hl]

theorem leaving_apply_error {address : UInt32} {s : Stop} {x : Eval σ UInt32}
    {m m₁ m₂ : Machine σ} (hx : x m = some (.error s, m₁)) (hl : m₁.leave = (.ok (), m₂)) :
    leaving address x m = some (.error s, m₂) := by
  simp only [leaving, hx, hl]

/-- Leaving undoes entering, whatever happens in between. -/
theorem leaving_keeps {m m₁ m' : Machine σ} {r : Routine} {address : UInt32} {x : Eval σ UInt32}
    {o : Except Stop UInt32} (he : m.Entered r m₁) (hx : x.Steady)
    (h : leaving address x m₁ = some (o, m')) : Keeps (halts o) m m' := by
  rcases hx₁ : x m₁ with _ | ⟨s | v, m₂⟩
  · simp [leaving, hx₁] at h
  · obtain ⟨m₃, hleave, hkeep⟩ := he.leave (hx m₁ _ m₂ hx₁)
    rw [leaving_apply_error hx₁ hleave] at h
    cases h
    cases s with
    | halt => exact hkeep
    | fault f => exact hkeep
  · obtain ⟨m₃, hleave, hkeep⟩ := he.leave (hx m₁ _ m₂ hx₁)
    rw [leaving_apply_ok hx₁ hleave] at h
    cases h
    exact hkeep.trans (m₃.keeps_record _)

variable [Host σ] {invoke : UInt32 → List UInt32 → Eval σ UInt32}

theorem Expr.combine_steady (hi : ∀ a vs, (invoke a vs).Steady) (e : Expr) (vs : List UInt32) :
    (e.combine invoke vs).Steady := by
  cases e with
  | const => exact .nullary (.pure _) vs
  | readLocal => exact .nullary (readLocal_steady _) vs
  | load => exact .unary (readMemory_steady _) vs
  | arith => exact .binary (arith_steady _) vs
  | compare => exact .binary (fun _ _ => .pure _) vs
  | convert => exact .unary (fun _ => .pure _) vs
  | call => exact .headed hi vs
  | callCounted => exact .binary (fun a n => .bind (popArguments_steady n) (hi a)) vs
  | pop => exact .nullary popValue_steady vs
  | glk => exact dispatch_steady vs
  | memorySize => exact .nullary memorySize_steady vs

theorem Expr.evalAll_steady {es : List Expr} (h : ∀ e ∈ es, (e.eval invoke).Steady) :
    (Expr.evalAll invoke es).Steady := by
  induction es with
  | nil =>
    rw [Expr.evalAll]
    exact .pure _
  | cons e rest ih =>
    rw [Expr.evalAll]
    refine .bind (h e List.mem_cons_self) fun v => .bind ?_ fun vs => .pure _
    exact ih fun c hc => h c (List.mem_cons_of_mem e hc)

/-- **Expressions are steady** if calls are. -/
theorem Expr.eval_steady (hi : ∀ a vs, (invoke a vs).Steady) (e : Expr) :
    (e.eval invoke).Steady := by
  induction e using Expr.childInduction with
  | h e ih =>
    rw [Expr.eval_eq]
    exact .bind (Expr.evalAll_steady ih) fun vs => e.combine_steady hi vs

/-- **Statements are steady** if calls are. -/
theorem Stmt.exec_steady (hi : ∀ a vs, (invoke a vs).Steady) (s : Stmt) :
    (s.exec invoke).Steady := by
  have he := Expr.eval_steady hi
  induction s with
  | label l => exact .bind countStep_steady fun _ => .pure _
  | eval value => exact .bind (he value) fun _ => .pure _
  | writeLocal var value =>
    exact .bind (he value) fun v => .bind (writeLocal_steady _ v) fun _ => .pure _
  | store width address value =>
    refine .bind (he address) fun a => .bind (he value) fun v => ?_
    exact .bind (writeMemory_steady width a v) fun _ => .pure _
  | push value => exact .bind (he value) fun v => .bind (pushValue_steady v) fun _ => .pure _
  | copyStack count => exact .bind (he count) fun n => .bind (copyStack_steady n) fun _ => .pure _
  | jump l => exact .pure _
  | branch cond guarded ih =>
    refine .bind (he cond) fun c => ?_
    split
    · exact .pure _
    · exact ih
  | ret value => exact .bind (he value) fun _ => .pure _
  | quit => exact .halt
  | putChar value => exact .bind (he value) fun v => .bind (putChar_steady v) fun _ => .pure _
  | putNumber value => exact .bind (he value) fun v => .bind (putNumber_steady v) fun _ => .pure _
  | putString address => exact .bind (he address) fun a => .bind (putString_steady a) fun _ => .pure _
  | restoreUndo => exact .bind restoreUndo_steady fun _ => .pure _

/-- **Bodies are steady** if calls are. -/
theorem Body.run_steady (hi : ∀ a vs, (invoke a vs).Steady) (b : Body) (fuel : Nat)
    (stmts : List Stmt) : (b.run invoke fuel stmts).Steady := by
  induction fuel generalizing stmts with
  | zero => exact .timeout
  | succ fuel ih =>
    cases stmts with
    | nil => exact .pure _
    | cons s rest =>
      refine .bind (s.exec_steady hi) fun c => ?_
      cases c with
      | next => exact ih rest
      | goto l =>
        dsimp only
        split
        · exact .fail _
        · exact ih _
      | ret v => exact .pure _

theorem invoke_succ_apply {fuel : Nat} {address : UInt32} {args : List UInt32} (m : Machine σ) :
    StoryVM.invoke (fuel + 1) address args m =
      match m.enter address args with
      | (.ok r, m) => leaving address (r.body.run (StoryVM.invoke fuel) fuel r.body.stmts) m
      | (.error f, m) => some (.error (.fault f), m) := by
  rw [StoryVM.invoke, bind_apply, attempt]
  rcases m.enter address args with ⟨_ | _, _⟩ <;> rfl

/-- **Calls are steady.** -/
theorem invoke_steady (fuel : Nat) (address : UInt32) (args : List UInt32) :
    (StoryVM.invoke fuel address args : Eval σ UInt32).Steady := by
  induction fuel generalizing address args with
  | zero => exact .timeout
  | succ fuel ih =>
    intro m o m' hm
    obtain ⟨hok, herr⟩ := m.enter_spec address args
    rw [invoke_succ_apply] at hm
    split at hm
    · next r m₁ henter =>
      exact leaving_keeps (hok r m₁ henter) (r.body.run_steady ih fuel r.body.stmts) hm
    · next f m₁ henter =>
      cases hm
      exact herr f _ henter

end StoryVM
