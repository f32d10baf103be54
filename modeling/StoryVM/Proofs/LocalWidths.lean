import Mathlib.Algebra.GroupWithZero.Nat
import StoryVM.Proofs.Cache
import StoryVM.Proofs.InstrRefinement
import StoryVM.Proofs.Safety
import StoryVM.Proofs.Termination

/-! # Locals fit their widths

A copy narrows its value to the width of the instruction, unless the value is known to fit: nothing is
done for a local of that width. What makes this right is far away, in the frames: a local keeps only
the low bytes of what is written to it, and the innermost frame is that of the routine whose code is
executed.

* `Frame.Fits`: the values of a frame's locals fit the widths that they are declared with.
* `Run.Framed`, `Run.Framed.step`: activations and frames are in step, and each frame has the locals
  of the routine that its activation executes.
* `Scope.narrowingCopy`, `Scope.copied`: the copy that always narrows, and what it does.
* `Scope.lower_copy_spec`: a copy without the narrowing does the same.
* `Machine.Session.locals_fit`: the locals in all states that calls come to, and copies in them. -/

namespace StoryVM

variable {σ : Type}

/-! ## Frames -/

theorem Width.truncate_lt (w : Width) (v : UInt32) : (w.truncate v).toNat < 2 ^ (8 * w.bytes) := by
  cases w with
  | byte =>
    rw [truncate, UInt32.toNat_and]
    exact Nat.lt_succ_of_le Nat.and_le_right
  | word =>
    rw [truncate, UInt32.toNat_and]
    exact Nat.lt_succ_of_le Nat.and_le_right
  | dword => exact v.toNat_lt

/-- **The locals of a frame fit**: there is one for each that is declared, and its value fits the
width of the declaration. -/
def Frame.Fits (f : Frame) (locals : List Local) : Prop :=
  f.size = locals.length ∧
    ∀ i l, locals[i]? = some l → ∃ v, f.read i = .ok v ∧ v.toNat < 2 ^ (8 * l.width.bytes)

theorem Frame.fits_of_widths {f : Frame} {locals : List Local}
    (h : f.slots.toList.map Slot.width = locals.map Local.width) : f.Fits locals := by
  have hlength := congrArg List.length h
  rw [List.length_map, List.length_map, Array.length_toList] at hlength
  refine ⟨hlength, fun i l hl => ?_⟩
  have hget := congrArg (·[i]?) h
  simp only [List.getElem?_map, hl, Option.map_some, Array.getElem?_toList] at hget
  obtain ⟨slot, hslot, hwidth⟩ := Option.map_eq_some_iff.mp hget
  refine ⟨slot.value, ?_, ?_⟩
  · rw [read, hslot]
  · rw [← hwidth, ← slot.fits]
    exact Width.truncate_lt slot.width slot.value

/-! ## The routines read so far -/

namespace Machine

/-- **Routines are kept** once they are read. -/
def Remembers (m m' : Machine σ) : Prop :=
  ∀ (a : UInt32) r, m.routines[a]? = some r → m'.routines[a]? = some r

theorem Remembers.of_eq {m m' : Machine σ} (h : m'.routines = m.routines) : m.Remembers m' := by
  intro a r hr
  rwa [h]

theorem remembers_routineAt (m : Machine σ) (address : UInt32) :
    m.Remembers (m.routineAt address).2 ∧
      ∀ r, (m.routineAt address).1 = .ok r →
        (m.routineAt address).2.routines[address]? = some r := by
  unfold routineAt
  rw [Std.TreeMap.get?_eq_getElem?]
  cases hget : m.routines[address]? with
  | some r =>
    refine ⟨.of_eq rfl, fun r' hr' => ?_⟩
    rw [← Except.ok.inj hr']
    exact hget
  | none =>
    cases hdecode : Routine.decode m.memory address m.ramStart with
    | error f => exact ⟨.of_eq rfl, nofun⟩
    | ok r =>
      refine ⟨fun a r' hr' => ?_, fun r' hr' => ?_⟩
      · simp only [record, Std.TreeMap.getElem?_insert]
        split
        · next heq =>
          obtain rfl : address = a := Std.LawfulEqCmp.eq_of_compare heq
          rw [hget] at hr'
          cases hr'
        · exact hr'
      · rw [← Except.ok.inj hr']
        simp [record]

/-- **Where the routines come from**: each was read from some memory, at the address where the machine
keeps it. -/
structure ReadFrom (start : UInt32) (m : Machine σ) : Prop where
  ramStart : m.ramStart = start
  cached : ∀ (a : UInt32) r, m.routines[a]? = some r →
    ∃ memory, Routine.decode memory a start = .ok r

theorem ReadFrom.of_eq {start : UInt32} {m m' : Machine σ} (h : m.ReadFrom start)
    (hramStart : m'.ramStart = m.ramStart) (hroutines : m'.routines = m.routines) :
    m'.ReadFrom start :=
  ⟨hramStart.trans h.ramStart, hroutines ▸ h.cached⟩

theorem ReadFrom.sound {start : UInt32} {m : Machine σ} (h : m.ReadFrom start) : m.Sound := by
  intro a r hr
  obtain ⟨memory, hdecode⟩ := h.cached a r hr
  exact Routine.decode_sound hdecode

theorem ReadFrom.routineAt {start : UInt32} {m : Machine σ} (h : m.ReadFrom start)
    (address : UInt32) : (m.routineAt address).2.ReadFrom start := by
  refine ⟨?_, fun a r hr => ?_⟩
  · obtain ⟨routines, trace, hat⟩ := m.routineAt_changes address
    rw [hat]
    exact h.ramStart
  · rcases cached_of_routineAt hr with hold | ⟨rfl, hdecode⟩
    · exact h.cached a r hold
    · exact ⟨m.memory, h.ramStart ▸ hdecode⟩

/-- **Runs read routines from memory.** -/
theorem upheld_readFrom (start : UInt32) :
    Machine.Upheld fun m m' : Machine σ => m.ReadFrom start → m'.ReadFrom start where
  refl m := id
  trans h h' := h' ∘ h
  after hop h := h.of_eq hop.routines.2 hop.routines.1
  enter m address args h := by
    have hread := h.routineAt address
    have hentry := m.enter_entry address args
    generalize m.enter address args = q at hentry
    cases hentry with
    | full => exact h.of_eq rfl rfl
    | unread hdepth hat =>
      rw [hat] at hread
      exact hread
    | enters hdepth hat stack f =>
      rw [hat] at hread
      exact hread.of_eq rfl rfl
    | declines hdepth hat hpointer f =>
      rw [hat] at hread
      exact hread.of_eq rfl rfl
  leave m h := by
    obtain ⟨frames, stack, hleave⟩ := m.leave_changes
    rw [hleave]
    exact h.of_eq rfl rfl
  record m e h := h.of_eq rfl rfl

/-- **A routine that is entered** is kept, as are those from before. -/
theorem remembers_enter (m : Machine σ) (address : UInt32) (args : List UInt32) :
    m.Remembers (m.enter address args).2 ∧
      ∀ r, (m.enter address args).1 = .ok r →
        (m.enter address args).2.routines[address]? = some r := by
  obtain ⟨hkept, hcached⟩ := m.remembers_routineAt address
  have hentry := m.enter_entry address args
  generalize m.enter address args = q at hentry
  cases hentry with
  | full => exact ⟨.of_eq rfl, nofun⟩
  | unread hdepth hat =>
    rw [hat] at hkept
    exact ⟨hkept, nofun⟩
  | enters hdepth hat stack f =>
    rw [hat] at hkept hcached
    refine ⟨hkept, fun r hr => ?_⟩
    rw [← Except.ok.inj hr]
    exact hcached _ rfl
  | declines hdepth hat hpointer f =>
    rw [hat] at hkept
    exact ⟨hkept, nofun⟩

end Machine

/-! ## Frames and activations in step -/

/-- **An activation runs a routine** that the machine has read, in a frame with the widths of the
routine's locals. -/
def Activation.RunsIn (m : Machine σ) (a : Activation) (f : Frame) : Prop :=
  ∃ address r, a.routine = some address ∧ m.routines[address]? = some r ∧ a.program = r.program ∧
    f.slots.toList.map Slot.width = r.body.locals.map Local.width

/-- **Activations and frames in step**, the innermost first. -/
def Run.Framed (r : Run σ) : Prop :=
  List.Forall₂ (Activation.RunsIn r.machine) (r.current :: r.suspended)
    r.machine.frames.toList.reverse

/-- A frame has the widths of the locals of a routine that the machine has read. -/
def Machine.Declares (m : Machine σ) (f : Frame) : Prop :=
  ∃ (address : UInt32) (r : Routine), m.routines[address]? = some r ∧
    f.slots.toList.map Slot.width = r.body.locals.map Local.width

/-- A run that goes on is in step. When it has ended, all frames are those of routines. -/
def Progress.Framed : Progress σ → Prop
  | running r => r.Framed
  | finished _ m => ∀ f ∈ m.frames, m.Declares f

theorem Activation.RunsIn.mono {m m' : Machine σ} {a b : Activation} {f g : Frame}
    (h : a.RunsIn m f) (hm : m.Remembers m') (hroutine : b.routine = a.routine)
    (hprogram : b.program = a.program) (hshape : g.shape = f.shape) : b.RunsIn m' g := by
  obtain ⟨address, r, ha, hr, hp, hwidths⟩ := h
  refine ⟨address, r, hroutine.trans ha, hm address r hr, hprogram.trans hp, ?_⟩
  exact (congrArg Prod.snd hshape).trans hwidths

namespace Run.Framed

variable {r : Run σ}

/-- Frames of the same shapes are in step, too. -/
theorem forall₂_of_shapes {m m' : Machine σ} {as : List Activation} {fs gs : List Frame}
    (h : List.Forall₂ (Activation.RunsIn m) as fs) (hm : m.Remembers m')
    (hshapes : gs.map Frame.shape = fs.map Frame.shape) :
    List.Forall₂ (Activation.RunsIn m') as gs := by
  induction h generalizing gs with
  | nil =>
    rw [List.map_nil, List.map_eq_nil_iff] at hshapes
    rw [hshapes]
    exact .nil
  | @cons a f as fs ha _ ih =>
    obtain ⟨g, gs, rfl, hg, hgs⟩ := List.map_eq_cons_iff.mp hshapes
    exact .cons (ha.mono hm rfl rfl hg) (ih hgs)

/-- What a run leaves alone stays in step. -/
theorem keeps {halts : Bool} (h : r.Framed) {m : Machine σ} (hk : Machine.Keeps halts r.machine m)
    (hm : r.machine.Remembers m) :
    List.Forall₂ (Activation.RunsIn m) (r.current :: r.suspended) m.frames.toList.reverse := by
  refine forall₂_of_shapes h hm ?_
  rw [List.map_reverse, List.map_reverse, hk.frames]

end Run.Framed

theorem Machine.declares_of_forall₂ {m : Machine σ} {as : List Activation} {fs : List Frame}
    (h : List.Forall₂ (Activation.RunsIn m) as fs) : ∀ f ∈ fs, m.Declares f := by
  induction h with
  | nil => simp
  | cons ha _ ih =>
    intro g hg
    rcases List.mem_cons.mp hg with rfl | hg
    · obtain ⟨address, r, -, hr, -, hwidths⟩ := ha
      exact ⟨address, r, hr, hwidths⟩
    · exact ih g hg

namespace Run.Framed

variable {r : Run σ}

theorem declares {halts : Bool} (h : r.Framed) {m : Machine σ}
    (hk : Machine.Keeps halts r.machine m) (hm : r.machine.Remembers m) :
    ∀ f ∈ m.frames, m.Declares f := by
  intro f hf
  exact Machine.declares_of_forall₂ (h.keeps hk hm) f (by simpa using hf)

/-- The run stays in step when an operation changes its machine and its current activation. -/
theorem exec (h : r.Framed) {m : Machine σ} (hk : Machine.Keeps false r.machine m)
    (hm : r.machine.Remembers m) {a : Activation} (hroutine : a.routine = r.current.routine)
    (hprogram : a.program = r.current.program) : Run.Framed ⟨m, a, r.suspended⟩ := by
  have hframes := h.keeps hk hm
  unfold Run.Framed
  generalize m.frames.toList.reverse = fs at hframes ⊢
  obtain _ | ⟨ha, hrest⟩ := hframes
  exact .cons (ha.mono (.of_eq rfl) hroutine hprogram rfl) hrest

/-- **Returning** leaves the frame of the current activation. -/
theorem returnValue (h : r.Framed) {m : Machine σ} (hk : Machine.Keeps false r.machine m)
    (hm : r.machine.Remembers m) (v : UInt32) : (r.returnValue v m).Framed := by
  have hframes := h.keeps hk hm
  -- The innermost frame is that of the current activation.
  obtain ⟨f, fs, hrev⟩ : ∃ f fs, m.frames.toList.reverse = f :: fs := by
    generalize m.frames.toList.reverse = gs at hframes
    obtain _ | ⟨-, -⟩ := hframes
    exact ⟨_, _, rfl⟩
  rw [hrev] at hframes
  obtain _ | ⟨⟨address, routine, haddress, -⟩, hrest⟩ := hframes
  have hpush : m.frames = fs.reverse.toArray.push f := by
    apply Array.ext'
    rw [← List.reverse_reverse m.frames.toList, hrev]
    simp
  simp only [Run.returnValue, haddress]
  cases hrestore : m.stack.restore f.base with
  | error fault =>
    have hleave : m.leave = (.error fault, { m with frames := fs.reverse.toArray }) := by
      simp [Machine.leave, hpush, hrestore]
    rw [hleave]
    intro g hg
    exact Machine.declares_of_forall₂ hrest g (by simpa using hg)
  | ok stack =>
    have hleave : m.leave = (.ok (), { m with frames := fs.reverse.toArray, stack := stack }) := by
      simp [Machine.leave, hpush, hrestore]
    rw [hleave]
    dsimp only
    cases hsuspended : r.suspended with
    | nil =>
      obtain rfl : fs = [] := by
        rw [hsuspended] at hrest
        cases hrest
        rfl
      intro g hg
      simp [Machine.record] at hg
    | cons caller rest =>
      rw [hsuspended] at hrest
      have hfs : fs.reverse.toArray.toList.reverse = fs := by simp
      show List.Forall₂ _ (caller.push v :: rest) fs.reverse.toArray.toList.reverse
      rw [hfs]
      obtain _ | ⟨ha, hrest⟩ := hrest
      exact .cons ha hrest

/-- **Calling** adds an activation and its frame. -/
theorem callRoutine (h : r.Framed) {m : Machine σ} (hk : Machine.Keeps false r.machine m)
    (hm : r.machine.Remembers m) {caller : Activation}
    (hroutine : caller.routine = r.current.routine) (hprogram : caller.program = r.current.program)
    (address : UInt32) (args : List UInt32) : (r.callRoutine address args caller m).Framed := by
  obtain ⟨hok, herr⟩ := m.enter_spec address args
  obtain ⟨hkept, hcached⟩ := m.remembers_enter address args
  have hcaller := h.exec hk hm hroutine hprogram
  unfold Run.callRoutine
  split
  · next f m' henter =>
    rw [henter] at hkept
    exact h.declares (hk.trans (herr f m' henter)) fun a r' hr' => hkept a r' (hm a r' hr')
  · next routine m' henter =>
    rw [henter] at hkept hcached
    obtain ⟨f, hframes, hshape⟩ := (hok routine m' henter).frames
    have hrev : m'.frames.toList.reverse = f :: m.frames.toList.reverse := by simp [hframes]
    show List.Forall₂ _ _ m'.frames.toList.reverse
    rw [hrev]
    refine .cons ⟨address, routine, rfl, hcached routine rfl, rfl, congrArg Prod.snd hshape⟩ ?_
    exact forall₂_of_shapes hcaller hkept rfl

/-- The current activation runs in the innermost frame. -/
theorem current (h : r.Framed) : ∃ f, r.machine.frames.back? = some f ∧
    r.current.RunsIn r.machine f := by
  unfold Run.Framed at h
  generalize hrev : r.machine.frames.toList.reverse = fs at h
  obtain _ | ⟨hf, -⟩ := h
  refine ⟨_, ?_, hf⟩
  rw [← Array.getLast?_toList, ← List.head?_reverse, hrev, List.head?_cons]

variable [Host σ]

/-- **Steps stay in step.** -/
theorem step (h : r.Framed) : r.step.Framed := by
  cases hop : r.current.program.ops[r.current.pc]? with
  | none =>
    rw [Run.step, hop]
    exact h.returnValue (.refl _) (.of_eq rfl) 0
  | some op =>
    rw [Run.step_of_fetch hop]
    have hk := op.exec_keeps { r.current with pc := r.current.pc + 1 } r.machine
    have hdoes := op.exec_does { r.current with pc := r.current.pc + 1 } r.machine
    have hm : r.machine.Remembers _ := .of_eq hdoes.machine.routines.1
    have hprogram : ∀ b, (op.exec { r.current with pc := r.current.pc + 1 } r.machine).activation? =
        some b → b.program = r.current.program := fun b hb => (hdoes.activation b hb).program
    generalize op.exec { r.current with pc := r.current.pc + 1 } r.machine = t
      at hk hm hprogram ⊢
    cases t with
    | next a m => exact h.exec hk.2 hm hk.1 (hprogram a rfl)
    | call address args a m => exact h.callRoutine hk.2 hm hk.1 (hprogram a rfl) address args
    | ret v m => exact h.returnValue hk hm v
    | halt m => exact h.declares hk hm
    | fault f m => exact h.declares hk hm

end Run.Framed

/-- **Runs stay in step.** -/
theorem Progress.Framed.after [Host σ] {p : Progress σ} (h : p.Framed) (n : Nat) :
    (p.after n).Framed := by
  induction n generalizing p with
  | zero => exact h
  | succ n ih =>
    cases p with
    | running r => exact ih (Run.Framed.step h)
    | finished result m => exact h

theorem Progress.Framed.declares {p : Progress σ} (h : p.Framed) :
    ∀ f ∈ p.machine.frames, p.machine.Declares f := by
  cases p with
  | running r => exact Run.Framed.declares h (.refl r.machine) (.of_eq rfl)
  | finished result m => exact h

/-- A run that starts without frames. -/
theorem Machine.framed_of_enter {m entered : Machine σ} (hm : m.frames = #[]) {address : UInt32}
    {args : List UInt32} {routine : Routine} (h : m.enter address args = (.ok routine, entered)) :
    (Progress.running ⟨entered, .ofRoutine routine address, []⟩).Framed := by
  obtain ⟨f, hframes, hshape⟩ := ((m.enter_spec address args).1 routine entered h).frames
  have hcached := (m.remembers_enter address args).2
  rw [h] at hcached
  show List.Forall₂ _ _ entered.frames.toList.reverse
  rw [hframes, hm]
  exact .cons ⟨address, routine, rfl, hcached routine rfl, rfl, congrArg Prod.snd hshape⟩ .nil

/-! ## Copies -/

/-- A computation that has an outcome on every machine. -/
def Eval.Total {α : Type} (x : Eval σ α) : Prop := ∀ m, ∃ o, x m = some o

namespace Eval

variable {α β : Type}

theorem Total.pure (a : α) : Total (Pure.pure a : Eval σ α) := fun m => ⟨_, pure_apply a m⟩

theorem Total.attempt (f : Machine σ → Except Fault α × Machine σ) : Total (Eval.attempt f) := by
  intro m
  unfold Eval.attempt
  rcases f m with ⟨_ | _, _⟩
  · exact ⟨_, rfl⟩
  · exact ⟨_, rfl⟩

theorem Total.bind {x : Eval σ α} {f : α → Eval σ β} (hx : Total x) (hf : ∀ a, Total (f a)) :
    Total (x >>= f) := by
  intro m
  obtain ⟨⟨s | a, m'⟩, ho⟩ := hx m
  · exact ⟨_, by rw [bind_apply, ho]⟩
  · rw [bind_apply, ho]
    exact hf a m'

end Eval

namespace Operand

theorem load_total (s : Scope) (w : Width) (o : Operand) : (o.load s w : Eval σ UInt32).Total := by
  unfold load
  split
  · exact .pure _
  · exact .attempt _
  · exact .attempt _
  · exact .attempt _
  · exact .attempt _

theorem store_total (s : Scope) (w : Width) (v : UInt32) (o : Operand) :
    (o.store s w v : Eval σ Unit).Total := by
  unfold store
  split
  · exact .pure _
  · exact .attempt _
  · exact .attempt _
  · exact .attempt _
  · exact .attempt _

end Operand

namespace Scope

/-- **What a copy of a width does**: the value is loaded, narrowed and stored. -/
def copied (s : Scope) (w : Width) (source dest : Operand) : Eval σ Control := do
  let v ← source.load s w
  dest.store s w (w.truncate v)
  return .next

theorem copied_total (s : Scope) (w : Width) (source dest : Operand) :
    (s.copied w source dest : Eval σ Control).Total :=
  .bind (source.load_total s w) fun v =>
    .bind (dest.store_total s w (w.truncate v)) fun _ => .pure _

/-- **The copy of a width that always narrows**. -/
def narrowingCopy (s : Scope) (w : Width) (source dest : Operand) : Except DecodeFault Effect := do
  s.assign dest (.convert w false (← s.fetch source w)) w

variable {s : Scope} {w : Width} {source dest : Operand} {i : Instr}

theorem lower_copy (ha : i.opcode.action = some (.copy w)) (hl : i.loads = [source])
    (hd : i.stores = [dest]) :
    s.lower i = s.fetch source w >>= fun value => s.assign dest (narrowed w value) w := by
  simp only [lower, ha, hl, hd]

/-- Whether an assignment is possible does not depend on the value. -/
theorem assign_error_iff {x y : Expr} {f : DecodeFault} :
    s.assign dest x w = .error f ↔ s.assign dest y w = .error f := by
  unfold assign
  split
  · split
    · simp
    · rfl
  · simp
  · simp
  · cases s.localAt dest.value <;> simp [Bind.bind, Except.bind, Pure.pure, Except.pure]
  · simp

/-- Copies of either kind are refused for the same reasons. -/
theorem lower_error_iff (ha : i.opcode.action = some (.copy w)) (hl : i.loads = [source])
    (hd : i.stores = [dest]) {f : DecodeFault} :
    s.lower i = .error f ↔ s.narrowingCopy w source dest = .error f := by
  rw [lower_copy ha hl hd, narrowingCopy]
  cases s.fetch source w with
  | error f' => rfl
  | ok value => exact assign_error_iff

variable [Host σ]

/-- An assignment is a statement that runs can follow, and it stores the value once. -/
theorem assign_spec {locals : List Local} (hs : s.Within locals) {value : Expr}
    (hv : value.Scoped locals) {e : Effect} (h : s.assign dest value w = .ok e) :
    ∃ t, e = .stmt t ∧ t.GuardOk ∧
      ∀ invoke : UInt32 → List UInt32 → Eval σ UInt32, t.exec invoke = do
        let v ← value.eval invoke
        dest.store s w v
        return .next := by
  obtain ⟨t, rfl, -⟩ : ∃ t, e = .stmt t ∧ t.exec (fun _ _ => pure 0 : _ → _ → Eval σ UInt32) = _ :=
    assign_store h
  refine ⟨t, rfl, (assign_proper hs dest w hv _ h).2.1, fun invoke => ?_⟩
  obtain ⟨u, hu, hexec⟩ : ∃ u, Effect.stmt t = .stmt u ∧ u.exec invoke = _ := assign_store h
  cases hu
  exact hexec

theorem narrowingCopy_spec {locals : List Local} (hs : s.Within locals) {e : Effect}
    (h : s.narrowingCopy w source dest = .ok e) :
    ∃ t, e = .stmt t ∧ t.GuardOk ∧
      ∀ invoke : UInt32 → List UInt32 → Eval σ UInt32, t.exec invoke = s.copied w source dest := by
  obtain ⟨value, hvalue, h⟩ := bind_ok_iff.mp h
  have hscoped : Expr.Scoped locals (.convert w false value) :=
    fetch_scoped hs w source value hvalue
  obtain ⟨t, rfl, hguard, hexec⟩ := assign_spec (σ := σ) hs hscoped h
  refine ⟨t, rfl, hguard, fun invoke => ?_⟩
  rw [hexec, Expr.eval, fetch_load hvalue, copied]
  simp [Width.convert]

/-- **A copy without the narrowing** does the same where the innermost frame has the locals that are in
scope. -/
theorem lower_copy_spec {locals : List Local} (hs : s.Within locals)
    (ha : i.opcode.action = some (.copy w)) (hl : i.loads = [source]) (hd : i.stores = [dest])
    {e : Effect} (h : s.lower i = .ok e) :
    ∃ t, e = .stmt t ∧ t.GuardOk ∧
      ∀ (invoke : UInt32 → List UInt32 → Eval σ UInt32) (m : Machine σ), m.HasLocals locals →
        t.exec invoke m = s.copied w source dest m := by
  rw [lower_copy ha hl hd] at h
  obtain ⟨value, hvalue, h⟩ := bind_ok_iff.mp h
  have hscoped := fetch_scoped hs w source value hvalue
  obtain ⟨t, rfl, hguard, hexec⟩ := assign_spec (σ := σ) hs (narrowed_scoped w hscoped) h
  refine ⟨t, rfl, hguard, fun invoke m hm => ?_⟩
  -- This is where the locals have to fit: one of the width of the copy is not narrowed.
  have hnarrowed : (narrowed w value).eval invoke m =
      (source.load s w >>= fun v => pure (w.truncate v)) m := by
    rw [narrowed_truncate hm w hscoped, fetch_load hvalue]
  rw [hexec, Eval.bind_apply_congr hnarrowed, copied, bind_assoc]
  simp

end Scope

/-! ## The copies of a machine -/

/-- The copy instructions: `copy`, `copys` and `copyb`. -/
theorem Instr.action_of_copy {i : Instr} (hi : i.opcode ∈ Opcode.table)
    (hn : i.opcode.number ∈ [0x40, 0x41, 0x42]) : i.opcode.action = some (.copy i.width) := by
  have htable : ∀ op ∈ Opcode.table, op.number ∈ [0x40, 0x41, 0x42] →
      op = ⟨0x40, "copy", [.load, .store], some (.copy .dword)⟩ ∨
      op = ⟨0x41, "copys", [.load, .store], some (.copy .word)⟩ ∨
      op = ⟨0x42, "copyb", [.load, .store], some (.copy .byte)⟩ := by decide +kernel
  rcases htable i.opcode hi hn with h | h | h <;> simp [Instr.width, h]

/-- **What a statement comes to** on a machine: this is what it means, whatever calls mean, and the
operations that it is laid out to follow it, wherever they stand. -/
structure Machine.ComesTo [Host σ] (m : Machine σ) (t : Stmt)
    (o : Except Stop Control × Machine σ) : Prop where
  meaning : ∀ invoke, t.exec invoke m = some o
  runs : ∀ (a : Activation) suspended, a.program.HasAt a.pc (t.code a.pc) →
    Follows 1 1 (.running ⟨m, a, suspended⟩) (Run.proceed ⟨m, a, suspended⟩ (t.code a.pc).length)
      (some o)

section Copies

variable [Host σ]

theorem Machine.Sound.comesTo {m : Machine σ} (hm : m.Sound) {t : Stmt} (hg : t.GuardOk)
    {o : Except Stop Control × Machine σ} (h : ∀ invoke, t.exec invoke m = some o) :
    m.ComesTo t o := by
  refine ⟨h, fun a suspended hcode => ?_⟩
  rw [← h (invoke 0)]
  exact Stmt.exec_follows (invoke_simulates 0) hg hm hcode

/-- **Copies with and without the narrowing** come to the same on a machine, if they are possible. -/
def Machine.CopiesAlike (m : Machine σ) (s : Scope) : Prop :=
  ∀ (i : Instr) (source dest : Operand), i.opcode ∈ Opcode.table →
    i.opcode.number ∈ [0x40, 0x41, 0x42] → i.loads = [source] → i.stores = [dest] →
    (∀ f, s.lower i = .error f ↔ s.narrowingCopy i.width source dest = .error f) ∧
    ∀ e, s.lower i = .ok e → ∃ t t' o, e = .stmt t ∧
      s.narrowingCopy i.width source dest = .ok (.stmt t') ∧ m.ComesTo t o ∧ m.ComesTo t' o

/-- **Narrowing makes no difference** where the innermost frame has the locals that are in scope. -/
theorem Scope.copiesAlike {s : Scope} {locals : List Local} (hs : s.Within locals) {m : Machine σ}
    (hsound : m.Sound) (hm : m.HasLocals locals) : m.CopiesAlike s := by
  intro i source dest hi hn hl hd
  have ha := Instr.action_of_copy hi hn
  refine ⟨fun f => lower_error_iff ha hl hd, fun e he => ?_⟩
  obtain ⟨o, ho⟩ := s.copied_total i.width source dest m
  obtain ⟨t, rfl, hguard, hexec⟩ := lower_copy_spec (σ := σ) hs ha hl hd he
  cases hnarrowing : s.narrowingCopy i.width source dest with
  | error f =>
    rw [(lower_error_iff ha hl hd).mpr hnarrowing] at he
    cases he
  | ok e' =>
    obtain ⟨t', rfl, hguard', hexec'⟩ := narrowingCopy_spec (σ := σ) hs hnarrowing
    refine ⟨t, t', o, rfl, rfl, hsound.comesTo hguard fun invoke => ?_,
      hsound.comesTo hguard' fun invoke => ?_⟩
    · rw [hexec invoke m hm, ho]
    · rw [hexec' invoke, ho]

end Copies

/-- The locals of a routine that is read are those of its header. -/
theorem Routine.declared_of_decode {memory : Memory} {address ramStart : UInt32} {r : Routine}
    (h : Routine.decode memory address ramStart = .ok r) {convention : Convention}
    {groups : List LocalGroup} {c : Cursor}
    (hheader : Routine.header memory address = .ok (convention, groups, c)) :
    r.body.locals = LocalGroup.declared groups := by
  obtain ⟨convention', groups', code, hcode, hr⟩ := Routine.decode_ok_iff.mp h
  obtain ⟨r', hr', -, -, hbody, -⟩ := hcode.ofBody
  obtain rfl := Except.ok.inj (hr.symm.trans hr')
  obtain ⟨c', hheader', -⟩ := hcode.reads
  obtain ⟨-, rfl, -⟩ : convention' = convention ∧ groups' = groups ∧ c' = c := by
    simpa using hheader'.symm.trans hheader
  rw [hbody]
  rfl

namespace Machine

variable [Host σ]

theorem Session.readFrom {start : UInt32} {m m' : Machine σ} (h : m.Session m')
    (hm : m.ReadFrom start) : m'.ReadFrom start := by
  induction h with
  | start => exact hm
  | call _ hcall ih => exact (upheld_readFrom start).call hcall ih

theorem Session.depth {m m' : Machine σ} (h : m.Session m') : m'.depth = m.depth := by
  induction h with
  | start => rfl
  | call _ hcall ih => exact ((call_level _).1 _ _ _ _ _ hcall).1.trans ih

/-- **Locals fit their widths**, and so copies need not narrow what is known to fit. A sequence of
calls of a new machine leaves no frames. At each point of the run of a further call, the values of the
locals in all frames fit the widths that the routines declare, activations and frames correspond, and
the copies that the routine of the current activation can have come to the same with and without the
narrowing. -/
theorem Session.locals_fit {memory : Memory} {capacity : Nat} {ramStart : UInt32} {host : σ}
    {limits : Limits} {m : Machine σ}
    (hs : Session { memory, stack := Stack.empty capacity, ramStart, host, limits } m)
    {address : UInt32} {args : List UInt32} {routine : Routine} {entered : Machine σ}
    (henter : m.enter address args = (.ok routine, entered)) (n : Nat) {p : Progress σ}
    (hp : (Progress.running ⟨entered, .ofRoutine routine address, []⟩).after n = p) :
    m.frames = #[] ∧
    (∀ f ∈ p.machine.frames, ∃ (a : UInt32) (r : Routine), p.machine.routines[a]? = some r ∧
      f.Fits r.body.locals) ∧
    ∀ run, p = .running run →
      List.Forall₂ (fun a f => ∃ address r, a.routine = some address ∧
          run.machine.routines[address]? = some r ∧ a.program = r.program ∧ f.Fits r.body.locals)
        (run.current :: run.suspended) run.machine.frames.toList.reverse ∧
      ∃ address r, run.current.routine = some address ∧
        run.machine.routines[address]? = some r ∧
        (∃ source, Routine.decode source address ramStart = .ok r) ∧
        ∀ source convention groups code, Routine.decode source address ramStart = .ok r →
          Routine.header source address = .ok (convention, groups, code) →
          run.machine.CopiesAlike (Routine.binder address ramStart groups).scope := by
  have hempty : m.frames = #[] := Array.size_eq_zero_iff.mp hs.depth
  have hframed := (framed_of_enter hempty henter).after n
  have hread : p.machine.ReadFrom ramStart := by
    have hstart := hs.readFrom ⟨rfl, fun a r hr => by simp at hr⟩
    have hentered := (upheld_readFrom ramStart).enter m address args hstart
    rw [henter] at hentered
    rw [← hp]
    exact (upheld_readFrom ramStart).run _ n hentered
  rw [hp] at hframed
  refine ⟨hempty, fun f hf => ?_, ?_⟩
  · obtain ⟨a, r, hr, hwidths⟩ := hframed.declares f hf
    exact ⟨a, r, hr, Frame.fits_of_widths hwidths⟩
  · rintro run rfl
    refine ⟨List.Forall₂.imp ?_ hframed, ?_⟩
    · rintro a f ⟨address, r, ha, hr, hprogram, hwidths⟩
      exact ⟨address, r, ha, hr, hprogram, Frame.fits_of_widths hwidths⟩
    · obtain ⟨f, hback, address, r, ha, hr, -, hwidths⟩ := Run.Framed.current hframed
      refine ⟨address, r, ha, hr, hread.cached address r hr, ?_⟩
      intro source convention groups code hdecode hheader
      -- The locals in scope are those of the header, and so those of the innermost frame.
      obtain ⟨hfresh, -, hdeclared⟩ := Routine.binder_spec address ramStart groups
      refine Scope.copiesAlike (hdeclared ▸ hfresh.within) hread.sound ⟨f, hback, ?_⟩
      rw [hwidths, Routine.declared_of_decode hdecode hheader]

/-- A machine with a routine that returns its one local, of 16 bits, by way of the value stack. -/
def clipping : Machine Silent :=
  { memory := { bytes := #[0xC1, 2, 1, 0, 0, 0x41, 0x89, 0, 0x31, 8] }, stack := Stack.empty 16,
    ramStart := 0, host := {} }

theorem Session.locals_fit_clipping :
    ∃ routine entered, clipping.enter 0 [0x12345] = (.ok routine, entered) ∧
      (entered.currentFrame >>= fun f => f.read 0) = .ok 0x2345 ∧
      (∀ f ∈ entered.frames, ∃ (a : UInt32) (r : Routine), entered.routines[a]? = some r ∧
        f.Fits r.body.locals) ∧
      ∃ o, entered.ComesTo (.push (.readLocal ⟨0, .word⟩)) o ∧
        entered.ComesTo (.push (.convert .word false (.readLocal ⟨0, .word⟩))) o := by
  have hvalue : (clipping.enter 0 [0x12345]).1.isOk = true ∧
      ((clipping.enter 0 [0x12345]).2.currentFrame >>= fun f => f.read 0) = .ok 0x2345 := by
    decide +kernel
  have hread : ((clipping.enter 0 [0x12345]).2.routines[(0 : UInt32)]?).map .ok =
      some (Routine.decode clipping.memory 0 0) := by decide +kernel
  have hgroups : (Routine.header clipping.memory 0).map (·.2.1) = .ok [⟨.word, 1⟩] := by
    decide +kernel
  have hlowered : (Routine.binder 0 0 [⟨.word, 1⟩]).scope.lower pushLocal =
        .ok (.stmt (.push (.readLocal ⟨0, .word⟩))) ∧
      (Routine.binder 0 0 [⟨.word, 1⟩]).scope.narrowingCopy .word ⟨.localSlot, 0⟩ ⟨.stack, 0⟩ =
        .ok (.stmt (.push (.convert .word false (.readLocal ⟨0, .word⟩)))) := by
    decide +kernel
  rcases henter : clipping.enter 0 [0x12345] with ⟨f | routine, entered⟩
  · rw [henter] at hvalue
    cases hvalue.1
  · rw [henter] at hvalue hread
    obtain ⟨-, hfits, hruns⟩ := Session.locals_fit .start henter 0 rfl
    obtain ⟨-, address, r, haddress, hr, -, hcopies⟩ := hruns _ rfl
    obtain rfl : 0 = address := Option.some.inj haddress
    have hdecode : some (Except.ok r) = some (Routine.decode clipping.memory 0 0) := by
      rw [← hread]
      exact congrArg (Option.map Except.ok) hr.symm
    obtain ⟨⟨convention, groups, code⟩, hheader, rfl⟩ := map_ok_iff.mp hgroups
    obtain ⟨-, hsame⟩ := hcopies _ _ _ _ (Option.some.inj hdecode).symm hheader pushLocal _ _
      (by decide +kernel) (by decide) rfl rfl
    obtain ⟨t, t', o, ht, ht', hruns, hruns'⟩ := hsame _ hlowered.1
    cases ht
    cases hlowered.2.symm.trans ht'
    exact ⟨routine, entered, rfl, hvalue.2, hfits, o, hruns, hruns'⟩

end Machine

end StoryVM
