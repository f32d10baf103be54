import StoryVM.Proofs.Operations
import StoryVM.Proofs.Refinement

/-! # Frames and activations

Each activation of a run owns one frame, and the base of each frame lies on the value stack
(`Run.Balanced`). No operation changes that (`Op.exec_keeps`), so a run always has a frame to leave,
and leaving never fails, neither on a return nor when a run is settled.

* `Machine.LeavableFrom`, `Machine.Leavable`: what makes leaving succeed.
* `Run.Balanced.step`, `Progress.Balanced.after`: steps and runs keep the balance. -/

namespace StoryVM

variable {σ : Type}

/-! ## Leaving -/

namespace Machine

/-- **Every frame from a depth on can be left**: its base lies on the stack. -/
def LeavableFrom (base : Nat) (m : Machine σ) : Prop :=
  ∀ (i : Nat) (f : Frame), base ≤ i → m.frames[i]? = some f → f.base ≤ m.stack.capacity

/-- **Every frame can be left**: its base lies on the stack. -/
def Leavable (m : Machine σ) : Prop := ∀ f ∈ m.frames, f.base ≤ m.stack.capacity

theorem leavable_iff {m : Machine σ} : m.Leavable ↔ m.LeavableFrom 0 := by
  constructor
  · intro h i f _ hf
    exact h f (Array.mem_of_getElem? hf)
  · intro h f hf
    obtain ⟨i, hi, rfl⟩ := Array.getElem_of_mem hf
    exact h i _ (Nat.zero_le i) (Array.getElem?_eq_getElem hi)

theorem Keeps.frame {halts : Bool} {m m' : Machine σ} (hk : Keeps halts m m') {i : Nat} {f : Frame}
    (hf : m'.frames[i]? = some f) : ∃ g, m.frames[i]? = some g ∧ g.base = f.base := by
  have hshape := congrArg (·[i]?) hk.frames
  simp only [List.getElem?_map, Array.getElem?_toList, hf, Option.map_some] at hshape
  obtain ⟨g, hg, he⟩ := Option.map_eq_some_iff.mp hshape.symm
  exact ⟨g, hg, congrArg Prod.fst he⟩

theorem leave_eq {m : Machine σ} {fs : Array Frame} {f : Frame} (hf : m.frames = fs.push f)
    (hb : f.base ≤ m.stack.capacity) :
    m.leave = (.ok (), { m with frames := fs, stack := ⟨m.stack.bytes, f.base, hb⟩ }) := by
  simp [leave, hf, Stack.restore, hb]

namespace LeavableFrom

variable {base : Nat} {m m' : Machine σ}

theorem keeps {halts : Bool} (h : m.LeavableFrom base) (hk : Keeps halts m m') :
    m'.LeavableFrom base := by
  intro i f hi hf
  obtain ⟨g, hg, hbase⟩ := hk.frame hf
  rw [← hbase, hk.capacity]
  exact h i g hi hg

theorem entered {r : Routine} (h : m.LeavableFrom base) (he : m.Entered r m') :
    m'.LeavableFrom base := by
  obtain ⟨f, hframes, hshape⟩ := he.frames
  intro i g hi hg
  rw [hframes, Array.getElem?_push] at hg
  rw [he.capacity]
  split at hg
  · cases hg
    have hbase : f.base = m.stack.pointer := congrArg Prod.fst hshape
    rw [hbase]
    exact m.stack.pointer_le
  · exact h i g hi hg

/-- **A frame above the depth can be left**, and the stack pointer is then its base. -/
theorem leave (h : m.LeavableFrom base) (hd : base < m.depth) :
    ∃ m' f, m.leave = (.ok (), m') ∧ m.frames = m'.frames.push f ∧ m'.stack.pointer = f.base ∧
      m'.LeavableFrom base := by
  obtain ⟨f, hf⟩ : ∃ f, m.frames.back? = some f := by
    refine Option.isSome_iff_exists.mp (Array.back?_isSome.mpr ?_)
    rintro hempty
    simp [depth, hempty] at hd
  obtain ⟨fs, hframes⟩ := Array.back?_eq_some_iff.mp hf
  have hsize : m.depth = fs.size + 1 := by simp [depth, hframes]
  have hfits : f.base ≤ m.stack.capacity := by
    refine h fs.size f (by omega) ?_
    simp [hframes]
  refine ⟨_, f, leave_eq hframes hfits, hframes, rfl, fun i g hi hg => ?_⟩
  refine h i g hi ?_
  have hlt : i < fs.size := (Array.getElem?_eq_some_iff.mp hg).1
  rw [hframes, Array.getElem?_push, if_neg (Nat.ne_of_lt hlt)]
  exact hg

theorem unwind {n : Nat} (h : m.LeavableFrom base) (hn : n ≤ m.depth - base) :
    m.LeavesTo (m.unwind n) := by
  induction n generalizing m with
  | zero => exact .refl m
  | succ n ih =>
    obtain ⟨m', f, hleave, hframes, -, hm'⟩ := h.leave (by omega)
    have hsize : m.depth = m'.depth + 1 := by simp [depth, hframes]
    rw [Machine.unwind, hleave]
    exact .step hleave (ih hm' (by omega))

/-- **Settling** only leaves frames that can be left. -/
theorem settle (h : m.LeavableFrom base) (result : Except Fault UInt32) :
    m.LeavesTo (m.settle base result).2 := by
  have hunwind := h.unwind (Nat.le_refl (m.depth - base))
  unfold Machine.settle
  split
  · exact hunwind
  · split
    · exact hunwind
    · exact .refl m

end LeavableFrom

theorem Leavable.from {m : Machine σ} (h : m.Leavable) (base : Nat) : m.LeavableFrom base :=
  fun i f _ hf => leavable_iff.mp h i f (Nat.zero_le i) hf

theorem Leavable.keeps {halts : Bool} {m m' : Machine σ} (h : m.Leavable) (hk : Keeps halts m m') :
    m'.Leavable :=
  leavable_iff.mpr ((leavable_iff.mp h).keeps hk)

theorem Leavable.entered {m m' : Machine σ} {r : Routine} (h : m.Leavable) (he : m.Entered r m') :
    m'.Leavable :=
  leavable_iff.mpr ((leavable_iff.mp h).entered he)

theorem Leavable.leave {m : Machine σ} (h : m.Leavable) (hd : 0 < m.depth) :
    ∃ m', m.leave = (.ok (), m') ∧ m'.Leavable ∧ m'.depth + 1 = m.depth := by
  obtain ⟨m', f, hleave, hframes, -, hm'⟩ := (leavable_iff.mp h).leave hd
  exact ⟨m', hleave, leavable_iff.mpr hm', by simp [depth, hframes]⟩

/-- **Settling** only leaves frames that can be left. -/
theorem Leavable.settle {m : Machine σ} (h : m.Leavable) (base : Nat)
    (result : Except Fault UInt32) : m.LeavesTo (m.settle base result).2 :=
  (h.from base).settle result

end Machine

/-! ## Balanced runs -/

/-- **A balanced run**, which began at a call depth: each activation owns a frame, and every frame
can be left. -/
structure Run.Balanced (base : Nat) (r : Run σ) : Prop where
  depth : r.machine.depth = base + 1 + r.suspended.length
  leavable : r.machine.Leavable
  owned : ∀ a ∈ r.current :: r.suspended, a.routine ≠ none

/-- A run that goes on is balanced; when it has ended, every frame can be left. -/
def Progress.Balanced (base : Nat) : Progress σ → Prop
  | running r => r.Balanced base
  | finished _ m => m.Leavable

namespace Run.Balanced

variable {base : Nat} {r : Run σ}

theorem leave (h : r.Balanced base) {m : Machine σ} (hk : Machine.Keeps false r.machine m) :
    ∃ m', m.leave = (.ok (), m') ∧ m'.Leavable ∧ m'.depth = base + r.suspended.length := by
  have hdepth := h.depth
  rw [← hk.depth] at hdepth
  obtain ⟨m', hleave, hm', hd⟩ := (h.leavable.keeps hk).leave (by omega)
  exact ⟨m', hleave, hm', by omega⟩

/-- **Returning** leaves the frame of the current activation. -/
theorem returnValue (h : r.Balanced base) {m : Machine σ} (hk : Machine.Keeps false r.machine m)
    (v : UInt32) : (r.returnValue v m).Balanced base := by
  obtain ⟨m', hleave, hm', hdepth⟩ := h.leave hk
  have howned := h.owned
  obtain ⟨machine, current, suspended⟩ := r
  obtain ⟨address, haddress⟩ := Option.ne_none_iff_exists'.mp (howned current List.mem_cons_self)
  simp only [Run.returnValue, haddress, hleave]
  have hleavable : (m'.record (.left address v)).Leavable := hm'.keeps (m'.keeps_record _)
  cases suspended with
  | nil => exact hleavable
  | cons caller rest =>
    refine ⟨?_, hleavable, fun a ha => ?_⟩
    · change m'.depth = base + 1 + rest.length
      rw [hdepth, List.length_cons]
      omega
    · rcases List.mem_cons.mp ha with rfl | ha
      · exact howned caller (by simp)
      · exact howned a (by simp [ha])

/-- **Calling** adds an activation and its frame. -/
theorem callRoutine (h : r.Balanced base) {m : Machine σ} (hk : Machine.Keeps false r.machine m)
    {caller : Activation} (hc : caller.routine ≠ none) (address : UInt32) (args : List UInt32) :
    (r.callRoutine address args caller m).Balanced base := by
  obtain ⟨hok, herr⟩ := m.enter_spec address args
  have hleavable := h.leavable.keeps hk
  unfold Run.callRoutine
  split
  · next f m' henter => exact hleavable.keeps (herr f m' henter)
  · next routine m' henter =>
    have he := hok routine m' henter
    refine ⟨?_, hleavable.entered he, fun a ha => ?_⟩
    · obtain ⟨f, hframes, -⟩ := he.frames
      have hdepth := h.depth
      rw [← hk.depth] at hdepth
      simp only [Machine.depth, hframes, Array.size_push, List.length_cons] at hdepth ⊢
      omega
    · rcases List.mem_cons.mp ha with rfl | ha
      · exact Option.some_ne_none _
      · rcases List.mem_cons.mp ha with rfl | ha
        · exact hc
        · exact h.owned a (List.mem_cons_of_mem _ ha)

end Run.Balanced

/-- The run of a routine that was just entered is balanced. -/
theorem Machine.Leavable.balanced {m m₁ : Machine σ} {r : Routine} (h : m.Leavable)
    (he : m.Entered r m₁) (address : UInt32) :
    Run.Balanced m.depth ⟨m₁, .ofRoutine r address, []⟩ := by
  obtain ⟨f, hframes, -⟩ := he.frames
  refine ⟨?_, h.entered he, by simp [Activation.ofRoutine]⟩
  simp [Machine.depth, hframes]

/-! ## Operations -/

/-- The activation that goes on belongs to the routine, and the machine was left alone as by a
run. -/
def Transfer.Keeps (routine : Option UInt32) (m : Machine σ) : Transfer σ → Prop
  | next a m' | call _ _ a m' => a.routine = routine ∧ Machine.Keeps false m m'
  | ret _ m' | fault _ m' => Machine.Keeps false m m'
  | halt m' => Machine.Keeps true m m'

theorem Stack.Change.capacity {s s' : Stack} (h : s.Change s') : s'.capacity = s.capacity := by
  cases h with
  | pop h => exact Stack.capacity_pop h
  | popArguments h => exact Stack.capacity_popArguments h
  | push h => exact Stack.capacity_pushBytes h
  | copy h => exact Stack.capacity_copyDwords h

theorem Machine.Change.keeps {m m' : Machine σ} (h : m.Change m') : Machine.Keeps false m m' := by
  cases h with
  | host host => exact ⟨rfl, rfl, rfl, by simp, id⟩
  | stack hs host => exact ⟨rfl, hs.capacity, rfl, by simp, id⟩
  | memory h => exact ⟨rfl, rfl, Memory.size_write h, by simp, id⟩
  | frame hf hw => exact Machine.keeps_setCurrentFrame hf (Frame.shape_write hw)

theorem Machine.After.keeps {op : Op} {m m' : Machine σ} (h : m.After op m') (hq : op ≠ .quit) :
    Machine.Keeps false m m' := by
  cases h with
  | change h => exact h.keeps
  | count l => exact m.keeps_countStep
  | halt => exact absurd rfl hq

theorem Activation.Moves.routine {a b : Activation} {op : Op} (h : a.Moves op b) :
    b.routine = a.routine := by
  cases h <;> rfl

variable [Host σ]

/-- **No operation touches the frames**, but for the values of locals, or the routine that an
activation belongs to. -/
theorem Op.exec_keeps (op : Op) (a : Activation) (m : Machine σ) :
    (op.exec a m).Keeps a.routine m := by
  by_cases hq : op = .quit
  · rw [hq]
    exact m.keeps_halt
  have hdoes := op.exec_does a m
  have hk := hdoes.machine.keeps hq
  generalize op.exec a m = t at hdoes hk
  cases t with
  | next b m' => exact ⟨(hdoes.activation b rfl).routine, hk⟩
  | call address args b m' => exact ⟨(hdoes.activation b rfl).routine, hk⟩
  | ret v m' => exact hk
  | fault f m' => exact hk
  | halt m' => exact absurd (hdoes.halting m' rfl) hq

/-- **Steps keep the balance.** -/
theorem Run.Balanced.step {base : Nat} {r : Run σ} (h : r.Balanced base) :
    r.step.Balanced base := by
  have hcurrent : r.current.routine ≠ none := h.owned r.current List.mem_cons_self
  cases hop : r.current.program.ops[r.current.pc]? with
  | none =>
    rw [Run.step, hop]
    exact h.returnValue (.refl _) 0
  | some op =>
    rw [Run.step_of_fetch hop]
    have hk := op.exec_keeps { r.current with pc := r.current.pc + 1 } r.machine
    generalize op.exec { r.current with pc := r.current.pc + 1 } r.machine = t at hk ⊢
    cases t with
    | next a m =>
      refine ⟨?_, h.leavable.keeps hk.2, fun b hb => ?_⟩
      · exact hk.2.depth.trans h.depth
      · rcases List.mem_cons.mp hb with rfl | hb
        · rw [hk.1]
          exact hcurrent
        · exact h.owned b (List.mem_cons_of_mem _ hb)
    | call address args a m =>
      exact h.callRoutine hk.2 (by rw [hk.1]; exact hcurrent) address args
    | ret v m => exact h.returnValue hk v
    | halt m => exact h.leavable.keeps hk
    | fault f m => exact h.leavable.keeps hk

/-- **Runs keep the balance.** -/
theorem Progress.Balanced.after {base : Nat} {p : Progress σ} (h : p.Balanced base) (n : Nat) :
    (p.after n).Balanced base := by
  induction n generalizing p with
  | zero => exact h
  | succ n ih =>
    cases p with
    | running r => exact ih (Run.Balanced.step h)
    | finished result m => exact h

end StoryVM
