import StoryVM.Proofs.Balance
import StoryVM.Proofs.Faults

/-! # No guest program breaks the machine

Whatever bytes a machine is given, and whatever routines are called on it, no call ends with an
internal fault, and no routine that was entered fails to be left (`call_benign`).

* `Machine.Ready`: the innermost frame has the locals of the routine that is running. Runs keep it.
* `Eval.Safe`: a computation with no internal fault. One lemma for each layer of the tree, as for
  `Follows`; by the refinement, runs have no internal fault either.
* `Machine.Session`: the machines that a sequence of calls leads to. -/

namespace StoryVM

variable {σ : Type}

/-- A host that fails with its own faults only. -/
structure Host.Honest (σ : Type) [Host σ] : Prop where
  glk : ∀ (s s' : σ) (selector : UInt32) (args : List UInt32) (f : Fault),
    Host.glk s selector args = (.error f, s') → ∃ reason, f = .host reason
  restoreUndo : ∀ (s s' : σ) (f : Fault),
    Host.restoreUndo s = (.error f, s') → ∃ reason, f = .host reason

/-! ## Machines that can run -/

namespace Machine

/-- **A loaded machine**: memory is small enough, and the routines read so far are sound. -/
structure Loaded (m : Machine σ) : Prop where
  memory : m.memory.size ≤ 0x80000000
  sound : m.Sound

theorem Loaded.keeps {halts : Bool} {m m' : Machine σ} (h : m.Loaded) (hk : Keeps halts m m') :
    m'.Loaded :=
  ⟨by rw [hk.memory]; exact h.memory, hk.sound h.sound⟩

/-- **A machine that runs a routine** with the given locals. -/
structure Ready (locals : List Local) (m : Machine σ) : Prop extends Loaded m where
  hasLocals : m.HasLocals locals

theorem Ready.keeps {halts : Bool} {locals : List Local} {m m' : Machine σ} (h : m.Ready locals)
    (hk : Keeps halts m m') : m'.Ready locals :=
  ⟨h.toLoaded.keeps hk, h.hasLocals.keeps hk⟩

theorem Entered.ready {m m' : Machine σ} {r : Routine} (h : m.Entered r m') (hm : m.Loaded) :
    m'.Ready r.body.locals :=
  ⟨⟨by rw [h.memory]; exact hm.memory, (h.sound hm.sound).1⟩, h.hasLocals⟩

/-- **Entering a routine** fails with no internal fault. -/
theorem enter_benign {m : Machine σ} (h : m.Loaded) (address : UInt32) (args : List UInt32) :
    Benign (m.enter address args).1 := by
  unfold enter
  split
  · exact .error rfl
  · split
    · next f m' hat =>
      obtain ⟨-, hdecode⟩ := (m.routineAt_spec address).2 f m' hat
      exact .error (Routine.decode_benign h.memory _ _ f hdecode)
    · next r m' hat =>
      have hpush := m'.stack.pushDwords_benign (args.reverse ++ [UInt32.ofNat args.length])
      dsimp only
      split
      · exact .ok _
      · split
        · exact .ok _
        · next f s hs =>
          rw [hs] at hpush
          split
          · exact .error (hpush f rfl)
          · next f' hf' =>
            unfold Stack.restore at hf'
            split at hf'
            · cases hf'
            · cases hf'
              exact .error rfl

end Machine

/-! ## Safe computations -/

open Machine (Loaded Ready)

namespace Eval

variable {α β : Type} {P Q : Machine σ → Prop}

/-- **A safe computation** has no internal fault on the machines with a property. -/
def Safe (P : Machine σ → Prop) (x : Eval σ α) : Prop :=
  ∀ m f m', P m → x m = some (.error (.fault f), m') → f.isInternal = false

theorem Safe.weaken {x : Eval σ α} (h : x.Safe Q) (hp : ∀ m, P m → Q m) : x.Safe P :=
  fun m f m' hm => h m f m' (hp m hm)

theorem Safe.pure (a : α) : Safe P (Pure.pure a : Eval σ α) := by
  rintro m f m' - ⟨⟩

theorem Safe.fail {f : Fault} (h : f.isInternal = false) : Safe P (fail f : Eval σ α) := by
  rintro m f m' - ⟨⟩
  exact h

theorem Safe.timeout : Safe P (timeout : Eval σ α) := by
  rintro m f m' - ⟨⟩

theorem Safe.halt : Safe P (halt : Eval σ α) := by
  rintro m f m' - ⟨⟩

theorem Safe.attempt {g : Machine σ → Except Fault α × Machine σ}
    (h : ∀ m, P m → Benign (g m).1) : Safe P (attempt g) := by
  intro m f m' hm hx
  have hb := h m hm
  unfold Eval.attempt at hx
  split at hx
  · cases hx
  · next e m₁ hg =>
    cases hx
    rw [hg] at hb
    exact hb f rfl

theorem Safe.inspect {g : Machine σ → Except Fault α} (h : ∀ m, P m → Benign (g m)) :
    Safe P (inspect g) :=
  Safe.attempt h

theorem Safe.update {g : Machine σ → Except Fault (α × Machine σ)}
    (h : ∀ m, P m → Benign (g m)) : Safe P (update g) := by
  refine Safe.attempt fun m hm => ?_
  have hb := h m hm
  split
  · exact .ok _
  · next e he => exact .error (hb e he)

/-- Computations in sequence, the first of them steady. -/
theorem Safe.bind {locals : List Local} {x : Eval σ α} {f : α → Eval σ β}
    (hx : x.Safe (Ready locals)) (hs : x.Steady)
    (hf : ∀ a, (∃ m m', x m = some (.ok a, m')) → (f a).Safe (Ready locals)) :
    Safe (Ready locals) (x >>= f) := by
  intro m fault m' hm h
  rw [bind_apply] at h
  split at h
  · cases h
  · next a m₁ ha => exact hf a ⟨m, m₁, ha⟩ m₁ fault m' (hm.keeps (hs m _ m₁ ha)) h
  · next s m₁ hstop =>
    cases h
    exact hx m fault _ hm hstop

variable {locals : List Local}

theorem readLocal_safe {var : Local} (hv : locals[var.index]? = some var) :
    Safe (Ready locals) (readLocal var.index : Eval σ UInt32) := by
  refine .inspect fun m hm => ?_
  obtain ⟨f, slot, hf, hslot, -⟩ := hm.hasLocals.slot hv
  rw [hf]
  refine .bind (.ok f) fun f' hf' => ?_
  cases hf'
  rw [Frame.read, hslot]
  exact .ok _

theorem writeLocal_safe {var : Local} (hv : locals[var.index]? = some var) (v : UInt32) :
    Safe (Ready locals) (writeLocal var.index v : Eval σ Unit) := by
  refine .update fun m hm => ?_
  obtain ⟨f, slot, hf, hslot, -⟩ := hm.hasLocals.slot hv
  rw [hf]
  refine .bind (.ok f) fun f' hf' => ?_
  cases hf'
  rw [Frame.write, hslot]
  exact .bind (.ok _) fun _ _ => .ok _

theorem readMemory_safe (w : Width) (a : UInt32) : Safe P (readMemory w a : Eval σ UInt32) :=
  .inspect fun m _ => m.memory.read_benign w a

theorem writeMemory_safe (w : Width) (a v : UInt32) : Safe P (writeMemory w a v : Eval σ Unit) :=
  .update fun m _ => .bind (m.memory.write_benign w a v) fun _ _ => .ok _

theorem memorySize_safe : Safe P (memorySize : Eval σ UInt32) := .inspect fun _ _ => .ok _

theorem popValue_safe : Safe P (popValue : Eval σ UInt32) :=
  .update fun m _ => .bind (m.stack.pop_benign .dword) fun _ _ => .ok _

theorem popArguments_safe (count : UInt32) : Safe P (popArguments count : Eval σ (List UInt32)) :=
  .update fun m _ => .bind (m.stack.popArguments_benign count) fun _ _ => .ok _

theorem pushValue_safe (v : UInt32) : Safe P (pushValue v : Eval σ Unit) :=
  .update fun m _ => .bind (m.stack.pushBytes_benign _) fun _ _ => .ok _

theorem copyStack_safe (count : UInt32) : Safe P (copyStack count : Eval σ Unit) :=
  .update fun m _ => .bind (m.stack.copyDwords_benign count) fun _ _ => .ok _

theorem countStep_safe : Safe P (countStep : Eval σ Unit) := by
  refine .attempt fun m _ => ?_
  unfold Machine.countStep
  dsimp only
  split
  · exact .ok _
  · split
    · exact .error rfl
    · exact .ok _

theorem arith_safe (op : ArithOp) (l r : UInt32) : Safe P (arith op l r : Eval σ UInt32) := by
  unfold arith
  split
  · exact .pure _
  · exact .fail rfl

variable [Host σ]

theorem dispatch_safe (hh : Host.Honest σ) {vs : List UInt32} (hv : vs.length = 2) :
    Safe P (dispatch vs : Eval σ UInt32) := by
  refine .attempt fun m _ => ?_
  obtain ⟨selector, count, rfl⟩ := List.length_eq_two.mp hv
  unfold Machine.dispatch
  dsimp only
  split
  · next f hf => exact .error (m.stack.popArguments_benign count f hf)
  · next glkArgs stack _ =>
    intro f hf
    obtain ⟨reason, rfl⟩ := hh.glk m.host _ selector glkArgs f (Prod.ext hf rfl)
    rfl

theorem putChar_safe (code : UInt32) : Safe P (putChar code : Eval σ Unit) :=
  .update fun _ _ => .ok _

theorem putNumber_safe (v : UInt32) : Safe P (putNumber v : Eval σ Unit) :=
  .update fun _ _ => .ok _

theorem putString_safe (a : UInt32) : Safe P (putString a : Eval σ Unit) :=
  .update fun m _ => .bind (m.memory.readString_benign a) fun _ _ => .ok _

theorem restoreUndo_safe (hh : Host.Honest σ) : Safe P (restoreUndo : Eval σ Unit) := by
  refine .attempt fun m _ f hf => ?_
  obtain ⟨reason, rfl⟩ := hh.restoreUndo m.host _ f (Prod.ext hf rfl)
  rfl

end Eval

open Eval

variable {locals : List Local} {invoke : UInt32 → List UInt32 → Eval σ UInt32}

theorem Expr.Scoped.of_mem_children {e c : Expr} (h : e.Scoped locals) (hc : c ∈ e.children) :
    c.Scoped locals := by
  cases e with
  | const _ | readLocal _ | pop | memorySize => simp [Expr.children] at hc
  | load _ _ | convert _ _ _ => simp_all [Expr.children, Expr.Scoped]
  | arith _ l r | compare _ l r | callCounted l r =>
    rcases List.mem_pair.mp hc with rfl | rfl
    · exact h.1
    · exact h.2
  | call address args =>
    rcases List.mem_cons.mp hc with rfl | hc
    · exact h.1
    · exact Expr.scopedAll_iff.mp h.2 c hc
  | glk args => exact Expr.scopedAll_iff.mp h.2 c hc

/-- A meaning of calls without internal faults. -/
structure SafeCalls (invoke : UInt32 → List UInt32 → Eval σ UInt32) : Prop where
  steady : ∀ address args, (invoke address args).Steady
  safe : ∀ address args, (invoke address args).Safe Loaded

theorem SafeCalls.ready (hi : SafeCalls invoke) (address : UInt32) (args : List UInt32) :
    (invoke address args).Safe (Ready locals) :=
  (hi.safe address args).weaken fun _ h => h.toLoaded

variable [Host σ]

theorem Expr.combine_safe (hh : Host.Honest σ) (hi : SafeCalls invoke) {e : Expr}
    (he : e.Scoped locals) {vs : List UInt32} (hv : vs.length = e.children.length) :
    (e.combine invoke vs).Safe (Ready locals) := by
  cases e with
  | const value =>
    obtain rfl := List.eq_nil_of_length_eq_zero hv
    exact .pure _
  | readLocal var =>
    obtain rfl := List.eq_nil_of_length_eq_zero hv
    exact readLocal_safe he
  | load w _ =>
    obtain ⟨a, rfl⟩ := List.length_eq_one_iff.mp hv
    exact readMemory_safe w a
  | arith op _ _ =>
    obtain ⟨l, r, rfl⟩ := List.length_eq_two.mp hv
    exact arith_safe op l r
  | compare op _ _ =>
    obtain ⟨l, r, rfl⟩ := List.length_eq_two.mp hv
    exact .pure _
  | convert w signed _ =>
    obtain ⟨v, rfl⟩ := List.length_eq_one_iff.mp hv
    exact .pure _
  | call _ args =>
    obtain ⟨a, vs, rfl⟩ := List.exists_cons_of_length_eq_add_one hv
    exact hi.ready a vs
  | callCounted _ _ =>
    obtain ⟨a, n, rfl⟩ := List.length_eq_two.mp hv
    exact .bind (popArguments_safe n) (popArguments_steady n) fun vs _ => hi.ready a vs
  | pop =>
    obtain rfl := List.eq_nil_of_length_eq_zero hv
    exact popValue_safe
  | glk args =>
    rw [Expr.combine]
    exact dispatch_safe hh (hv.trans he.1)
  | memorySize =>
    obtain rfl := List.eq_nil_of_length_eq_zero hv
    exact memorySize_safe

theorem Expr.evalAll_safe {es : List Expr} (hs : ∀ e : Expr, (e.eval invoke).Steady)
    (h : ∀ e ∈ es, (e.eval invoke).Safe (Ready locals)) :
    (Expr.evalAll invoke es).Safe (Ready locals) := by
  induction es with
  | nil =>
    rw [Expr.evalAll]
    exact .pure _
  | cons e rest ih =>
    have hrest := ih fun c hc => h c (List.mem_cons_of_mem e hc)
    rw [Expr.evalAll]
    refine .bind (h e List.mem_cons_self) (hs e) fun v _ => ?_
    exact .bind hrest (Expr.evalAll_steady fun c _ => hs c) fun vs _ => .pure _

/-- **Scoped expressions are safe** if calls are. -/
theorem Expr.eval_safe (hh : Host.Honest σ) (hi : SafeCalls invoke) (e : Expr)
    (he : e.Scoped locals) : (e.eval invoke).Safe (Ready locals) := by
  have hs : ∀ e : Expr, (e.eval invoke).Steady := Expr.eval_steady hi.steady
  induction e using Expr.childInduction with
  | h e ih =>
    rw [Expr.eval_eq]
    have hall : (Expr.evalAll invoke e.children).Safe (Ready locals) :=
      Expr.evalAll_safe hs fun c hc => ih c hc (he.of_mem_children hc)
    refine .bind hall (Expr.evalAll_steady fun c _ => hs c) fun vs hvs => ?_
    obtain ⟨m, m', hvs⟩ := hvs
    exact Expr.combine_safe hh hi he (length_of_evalAll hvs)

/-- **Scoped statements are safe** if calls are. -/
theorem Stmt.exec_safe (hh : Host.Honest σ) (hi : SafeCalls invoke) (s : Stmt)
    (hs : s.Scoped locals) : (s.exec invoke).Safe (Ready locals) := by
  have hsteady : ∀ e : Expr, (e.eval invoke).Steady := Expr.eval_steady hi.steady
  have hsafe : ∀ e : Expr, e.Scoped locals → (e.eval invoke).Safe (Ready locals) :=
    Expr.eval_safe hh hi
  -- Most statements evaluate one expression and hand its value to one operation.
  have hone : ∀ (e : Expr) (op : UInt32 → Eval σ Unit), e.Scoped locals →
      (∀ v, (op v).Safe (Ready locals)) → (∀ v, (op v).Steady) →
      Safe (Ready locals) (do
        let v ← e.eval invoke
        op v
        return Control.next) := by
    intro e op he hop hst
    refine .bind (hsafe e he) (hsteady e) fun v _ => ?_
    exact .bind (hop v) (hst v) fun _ _ => .pure _
  induction s with
  | label l => exact .bind countStep_safe countStep_steady fun _ _ => .pure _
  | eval value => exact .bind (hsafe value hs) (hsteady value) fun _ _ => .pure _
  | writeLocal var value =>
    exact hone value _ hs.2 (writeLocal_safe hs.1) (writeLocal_steady var.index)
  | store w address value =>
    refine .bind (hsafe address hs.1) (hsteady address) fun a _ => ?_
    exact hone value _ hs.2 (writeMemory_safe w a) (writeMemory_steady w a)
  | push value => exact hone value _ hs pushValue_safe pushValue_steady
  | copyStack count => exact hone count _ hs copyStack_safe copyStack_steady
  | jump l => exact .pure _
  | branch cond guarded ih =>
    refine .bind (hsafe cond hs.1) (hsteady cond) fun c _ => ?_
    split
    · exact .pure _
    · exact ih hs.2
  | ret value => exact .bind (hsafe value hs) (hsteady value) fun _ _ => .pure _
  | quit => exact .halt
  | putChar value => exact hone value _ hs putChar_safe putChar_steady
  | putNumber value => exact hone value _ hs putNumber_safe putNumber_steady
  | putString address => exact hone address _ hs putString_safe putString_steady
  | restoreUndo => exact .bind (restoreUndo_safe hh) restoreUndo_steady fun _ _ => .pure _

/-- **The body of a sound routine is safe** if calls are: all its jumps lead to its labels. -/
theorem Body.run_safe (hh : Host.Honest σ) (hi : SafeCalls invoke) {r : Routine} (hr : r.Sound)
    (fuel : Nat) {stmts : List Stmt} (hsub : ∀ s ∈ stmts, s ∈ r.body.stmts) :
    (r.body.run invoke fuel stmts).Safe (Ready r.body.locals) := by
  induction fuel generalizing stmts with
  | zero => exact .timeout
  | succ fuel ih =>
    cases stmts with
    | nil => exact .pure _
    | cons s rest =>
      have hs : s ∈ r.body.stmts := hsub s List.mem_cons_self
      have hrest : ∀ t ∈ rest, t ∈ r.body.stmts := fun t ht => hsub t (List.mem_cons_of_mem s ht)
      rw [Body.run]
      refine .bind (s.exec_safe hh hi (hr.inScope s hs)) (s.exec_steady hi.steady) fun c hc => ?_
      cases c with
      | next => exact ih hrest
      | goto l =>
        obtain ⟨m, m', hgoto⟩ := hc
        obtain ⟨before, after, hsplit, hat⟩ := hr.exists_at hs (Stmt.goto_of_exec hgoto)
        simp only [hat]
        refine ih fun t ht => ?_
        rw [hsplit]
        exact List.mem_append_right before ht
      | ret v => exact .pure _

/-- A routine that was entered has no internal fault, up to where it has been left. -/
theorem leaving_safe (hh : Host.Honest σ) (hi : SafeCalls invoke) {m m₁ m' : Machine σ} {r : Routine}
    (hm : m.Loaded) (he : m.Entered r m₁) {address : UInt32} {fuel : Nat} {f : Fault}
    (h : leaving address (r.body.run invoke fuel r.body.stmts) m₁ = some (.error (.fault f), m')) :
    f.isInternal = false := by
  have hsafe := Body.run_safe hh hi (he.sound hm.sound).2 fuel fun s hs => hs
  have hsteady := r.body.run_steady hi.steady fuel r.body.stmts
  rcases hx : r.body.run invoke fuel r.body.stmts m₁ with _ | ⟨s | v, m₂⟩
  · simp [leaving, hx] at h
  · obtain ⟨m₃, hleave, -⟩ := he.leave (hsteady m₁ _ m₂ hx)
    rw [leaving_apply_error hx hleave] at h
    cases h
    exact hsafe m₁ f m₂ (he.ready hm) hx
  · obtain ⟨m₃, hleave, -⟩ := he.leave (hsteady m₁ _ m₂ hx)
    rw [leaving_apply_ok hx hleave] at h
    cases h

/-- **Calls are safe.** -/
theorem invoke_safeCalls (hh : Host.Honest σ) (fuel : Nat) :
    SafeCalls (StoryVM.invoke fuel : UInt32 → List UInt32 → Eval σ UInt32) := by
  induction fuel with
  | zero => exact ⟨invoke_steady 0, fun _ _ => .timeout⟩
  | succ fuel ih =>
    refine ⟨invoke_steady (fuel + 1), fun address args m f m' hm h => ?_⟩
    rw [invoke_succ_apply] at h
    split at h
    · next r m₁ henter =>
      exact leaving_safe hh ih hm ((m.enter_spec address args).1 r m₁ henter) h
    · next e m₁ henter =>
      cases h
      exact Machine.enter_benign hm address args f (congrArg Prod.fst henter)

/-! ## Sequences of calls -/

namespace Machine

/-- **What a call comes to**: the answer of a halted machine, a routine that was not entered, or
what the body of the routine means. -/
theorem call_outcome {m m' : Machine σ} (hs : m.Sound) {fuel : Nat} {address : UInt32}
    {args : List UInt32} {result : Except Fault UInt32}
    (h : m.call fuel address args = some (result, m')) :
    (result = .ok 0 ∧ m' = m) ∨
      (∃ f, m.enter address args = (.error f, m') ∧ result = .error f) ∨
      ∃ r m₁ k o, m.Entered r m₁ ∧ result = answer o ∧
        leaving address (r.body.run (StoryVM.invoke k) k r.body.stmts) m₁ = some (o, m') := by
  unfold call at h
  split at h
  · cases h
    exact Or.inl ⟨rfl, rfl⟩
  · next hhalted =>
    split at h
    · next f m₁ henter =>
      cases h
      exact Or.inr (Or.inl ⟨f, henter, rfl⟩)
    · next r m₁ henter =>
      have he := (m.enter_spec address args).1 r m₁ henter
      have hm : m.halted = false := by simpa using hhalted
      obtain ⟨⟨ended, last⟩, hfinish, hsettle⟩ := Option.map_eq_some_iff.mp h
      obtain ⟨k, hk⟩ := (he.settles_iff hm hs address (result, m')).mp
        ⟨fuel, ended, last, Run.after_of_finish hfinish, hsettle⟩
      obtain ⟨⟨o, last'⟩, hleaving, heq⟩ := Option.map_eq_some_iff.mp hk
      cases heq
      exact Or.inr (Or.inr ⟨r, m₁, k, o, he, rfl, hleaving⟩)

theorem call_keeps {m m' : Machine σ} (hs : m.Sound) {fuel : Nat} {address : UInt32}
    {args : List UInt32} {result : Except Fault UInt32}
    (h : m.call fuel address args = some (result, m')) : ∃ halts, Keeps halts m m' := by
  rcases call_outcome hs h with ⟨-, rfl⟩ | ⟨f, henter, -⟩ | ⟨r, m₁, k, o, he, -, hleaving⟩
  · exact ⟨false, .refl m'⟩
  · exact ⟨false, (m.enter_spec address args).2 f m' henter⟩
  · exact ⟨_, leaving_keeps he (r.body.run_steady (invoke_steady k) k _) hleaving⟩

theorem call_fault {m m' : Machine σ} (hh : Host.Honest σ) (hm : m.Loaded) {fuel : Nat}
    {address : UInt32} {args : List UInt32} {f : Fault}
    (h : m.call fuel address args = some (.error f, m')) : f.isInternal = false := by
  rcases call_outcome hm.sound h with ⟨hok, -⟩ | ⟨f', henter, hf⟩ | ⟨r, m₁, k, o, he, ho, hleaving⟩
  · cases hok
  · cases hf
    exact enter_benign hm address args f (congrArg Prod.fst henter)
  · obtain rfl : o = .error (.fault f) := by
      rcases o with (_ | f') | v
      · cases ho
      · cases ho
        rfl
      · cases ho
    exact leaving_safe hh (invoke_safeCalls hh k) hm he hleaving

/-- **A sequence of calls** leads from one machine to another. -/
inductive Session (m : Machine σ) : Machine σ → Prop
  | start : Session m m
  | call {m₁ m₂ : Machine σ} {fuel : Nat} {address : UInt32} {args : List UInt32}
    {result : Except Fault UInt32} (h : Session m m₁)
    (hcall : m₁.call fuel address args = some (result, m₂)) : Session m m₂

theorem Session.loaded {m m' : Machine σ} (h : m.Session m') (hm : m.Loaded) (hl : m.Leavable) :
    m'.Loaded ∧ m'.Leavable := by
  induction h with
  | start => exact ⟨hm, hl⟩
  | call _ hcall ih =>
    obtain ⟨halts, hk⟩ := call_keeps ih.1.sound hcall
    exact ⟨ih.1.keeps hk, ih.2.keeps hk⟩

end Machine

/-- **No guest program breaks the machine.** On a new machine with a memory of at most `2 ^ 31`
bytes and a host that fails with its own faults only, after any sequence of calls, no call of any
routine ends with an internal fault. As long as its run goes on, there is a frame to leave, and
leaving it succeeds; and when the run has ended, settling it leaves frames one by one without a
failure. -/
theorem call_benign (hh : Host.Honest σ) {memory : Memory} (hmemory : memory.size ≤ 0x80000000)
    {ramStart : UInt32} {capacity : Nat} {limits : Limits} {host : σ} {m : Machine σ}
    (hs : Machine.Session { memory, stack := Stack.empty capacity, ramStart, host, limits } m)
    (address : UInt32) (args : List UInt32) :
    (∀ fuel f m', m.call fuel address args = some (.error f, m') → f.isInternal = false) ∧
    ∀ r entered, m.enter address args = (.ok r, entered) → ∀ n,
      match (Progress.running ⟨entered, .ofRoutine r address, []⟩).after n with
      | .running run => ∃ m', run.machine.leave = (.ok (), m')
      | .finished result m' => m'.LeavesTo (m'.settle m.depth result).2 := by
  obtain ⟨hloaded, hleavable⟩ := hs.loaded ⟨hmemory, fun a r hr => by simp at hr⟩
    (fun f hf => by simp at hf)
  refine ⟨fun fuel f m' h => Machine.call_fault hh hloaded h, fun r entered henter n => ?_⟩
  have he := (m.enter_spec address args).1 r entered henter
  have hstart : (Progress.running ⟨entered, .ofRoutine r address, []⟩).Balanced m.depth :=
    hleavable.balanced he address
  have hbalanced := hstart.after n
  generalize (Progress.running ⟨entered, .ofRoutine r address, []⟩).after n = p at hbalanced ⊢
  cases p with
  | running run =>
    obtain ⟨m', hleave, -⟩ := Run.Balanced.leave hbalanced (.refl run.machine)
    exact ⟨m', hleave⟩
  | finished result m' => exact hbalanced.settle m.depth result

theorem Silent.honest : Host.Honest Silent :=
  ⟨fun _ _ _ _ _ h => (nomatch (Prod.mk.inj h).1), fun _ _ _ h => (nomatch (Prod.mk.inj h).1)⟩

/-- A machine with a routine at address 0 that returns 7. -/
def returningSeven : Machine Silent :=
  { memory := { bytes := #[0xC1, 0, 0, 0x31, 1, 7] }, stack := Stack.empty 16, ramStart := 0,
    host := {} }

theorem call_benign_returningSeven :
    Host.Honest Silent ∧ returningSeven.memory.size ≤ 0x80000000 ∧
      ∃ m, returningSeven.Session m ∧
        ∃ f m', m.call 10 1 [] = some (.error f, m') ∧ f.isInternal = false := by
  have hmemory : returningSeven.memory.size ≤ 0x80000000 := by decide
  have hcalls : (returningSeven.call 10 0 []).bind (fun p => (p.2.call 10 1 []).map (·.1.isOk)) =
      some false := by
    decide +kernel
  obtain ⟨⟨result, m⟩, hfirst, hsecond⟩ := Option.bind_eq_some_iff.mp hcalls
  obtain ⟨⟨f | v, m'⟩, hfault, hv⟩ := Option.map_eq_some_iff.mp hsecond
  · have hs : returningSeven.Session m := .call .start hfirst
    refine ⟨Silent.honest, hmemory, m, hs, f, m', hfault, ?_⟩
    exact (call_benign Silent.honest hmemory hs 1 []).1 10 f m' hfault
  · cases hv

end StoryVM
