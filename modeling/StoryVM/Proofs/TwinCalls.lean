import StoryVM.Proofs.Twins

/-! # Calls on twin machines

Twin machines cannot be told apart by calling routines, except by the numbers in the report of an
underflow: the calls come to the same answer, and on twin machines again. This also holds if the
machines read routines in different ways, as long as these are twins.

* `Machine.callBy`: the meaning of a call, with routines read in a given way.
* `leaving_sameEnd`: leaving a routine puts the pointer of the value stack back, so that nothing is
  left of how far an underflow had come.
* `invoke_twin`, `Machine.Twin.sameCalls`: calls on twin machines agree. -/

namespace StoryVM

open Eval

variable {σ : Type}

/-! ## Entering and leaving -/

namespace Machine

/-- A way to read the routine at an address, given the start of writable memory. -/
abbrev Reader := Memory → UInt32 → UInt32 → Except Fault Routine

/-- The routine at an address, read in a given way the first time only. -/
def routineBy (read : Reader) (m : Machine σ) (address : UInt32) :
    Except Fault Routine × Machine σ :=
  match m.routines.get? address with
  | some r => (.ok r, m)
  | none =>
    match read m.memory address m.ramStart with
    | .error fault => (.error fault, m)
    | .ok r =>
      let m := m.record (.decoded r.convention address r.body.stmts.length r.body.labelCount)
      (.ok r, { m with routines := m.routines.insert address r })

/-- Makes the frame of a routine and passes the arguments. -/
def pass (m : Machine σ) (address : UInt32) (args : List UInt32) (r : Routine) :
    Except Fault Routine × Machine σ :=
  let base := m.stack.pointer
  let frame := Frame.make r.body.locals base
  match r.convention with
  | .localArguments => (.ok r, m.pushFrame address args.length (frame.passArguments args))
  | .stackArguments =>
    match m.stack.pushDwords (args.reverse ++ [UInt32.ofNat args.length]) with
    | (.ok (), stack) => (.ok r, { m with stack := stack }.pushFrame address args.length frame)
    | (.error fault, stack) =>
      match stack.restore base with
      | .ok stack => (.error fault, { m with stack := stack })
      | .error fault => (.error fault, { m with stack := stack })

/-- **Enters the routine at an address**, with routines read in a given way. -/
def enterBy (read : Reader) (m : Machine σ) (address : UInt32) (args : List UInt32) :
    Except Fault Routine × Machine σ :=
  if m.limits.maxDepth ≤ m.depth then
    (.error (.callDepthExceeded m.limits.maxDepth),
      m.record (.depthLimit m.limits.maxDepth address))
  else
    match m.routineBy read address with
    | (.error fault, m) => (.error fault, m)
    | (.ok r, m) => m.pass address args r

theorem enterBy_decode (m : Machine σ) (address : UInt32) (args : List UInt32) :
    m.enterBy Routine.decode address args = m.enter address args := rfl

variable {read read' : Reader} {m m' : Machine σ}

/-- Twin machines on which the same routine was read or entered, or the same fault came up. -/
structure TwinEntry (q q' : Except Fault Routine × Machine σ) : Prop where
  routine : Matched Routine.Twin q.1 q'.1
  machine : q.2.Twin q'.2

theorem Twin.routineBy (hread : ∀ memory address ramStart,
      Matched Routine.Twin (read memory address ramStart) (read' memory address ramStart))
    (h : m.Twin m') (address : UInt32) :
    TwinEntry (m.routineBy read address) (m'.routineBy read' address) := by
  obtain ⟨routines, hroutines⟩ := h
  have hrel := hroutines address
  unfold Machine.routineBy
  dsimp only
  rw [Std.TreeMap.get?_eq_getElem?, Std.TreeMap.get?_eq_getElem?]
  generalize m.routines[address]? = cached at hrel ⊢
  generalize routines[address]? = cached' at hrel ⊢
  cases hrel with
  | some htwin => exact ⟨.ok htwin, .mk routines hroutines⟩
  | none =>
    have hboth := hread m.memory address m.ramStart
    dsimp only
    generalize read m.memory address m.ramStart = x at hboth ⊢
    generalize read' m.memory address m.ramStart = x' at hboth ⊢
    cases hboth with
    | error f => exact ⟨.error f, .mk routines hroutines⟩
    | @ok r r' htwin =>
      refine ⟨.ok htwin, ?_⟩
      dsimp only
      rw [htwin.convention, htwin.body.labelCount, ← htwin.body.stmts.length_eq]
      refine .mk (routines.insert address r') fun a => ?_
      simp only [record, Std.TreeMap.getElem?_insert]
      split
      · exact .some htwin
      · exact hroutines a

theorem Twin.pass (h : m.Twin m') {r r' : Routine} (hr : r.Twin r') (address : UInt32)
    (args : List UInt32) : TwinEntry (m.pass address args r) (m'.pass address args r') := by
  obtain ⟨routines, hroutines⟩ := h
  unfold Machine.pass
  dsimp only
  rw [hr.convention, hr.body.locals]
  split
  · exact ⟨.ok hr, .mk routines hroutines⟩
  · split
    · exact ⟨.ok hr, .mk routines hroutines⟩
    · split
      · exact ⟨.error _, .mk routines hroutines⟩
      · exact ⟨.error _, .mk routines hroutines⟩

/-- **Entering a routine** on twin machines. -/
theorem Twin.enterBy (hread : ∀ memory address ramStart,
      Matched Routine.Twin (read memory address ramStart) (read' memory address ramStart))
    (h : m.Twin m') (address : UInt32) (args : List UInt32) :
    TwinEntry (m.enterBy read address args) (m'.enterBy read' address args) := by
  have hentry := h.routineBy hread address
  have hlimit : m'.limits.maxDepth = m.limits.maxDepth ∧ m'.depth = m.depth := by
    cases h
    exact ⟨rfl, rfl⟩
  unfold Machine.enterBy
  rw [hlimit.1, hlimit.2]
  split
  · obtain ⟨routines, hroutines⟩ := h
    exact ⟨.error _, .mk routines hroutines⟩
  · generalize m.routineBy read address = q at hentry ⊢
    generalize m'.routineBy read' address = q' at hentry ⊢
    obtain ⟨x, m₁⟩ := q
    obtain ⟨x', m₁'⟩ := q'
    obtain ⟨hx, hm₁⟩ := hentry
    cases hx with
    | error f => exact ⟨.error f, hm₁⟩
    | ok hr => exact hm₁.pass hr address args

theorem Twin.record (h : m.Twin m') (e : Event) : (m.record e).Twin (m'.record e) := by
  obtain ⟨routines, hroutines⟩ := h
  exact .mk routines hroutines

/-- **Leaving a routine** on twin machines. -/
theorem Twin.leave (h : m.Twin m') : m'.leave.1 = m.leave.1 ∧ m.leave.2.Twin m'.leave.2 := by
  obtain ⟨routines, hroutines⟩ := h
  unfold Machine.leave
  dsimp only
  split
  · exact ⟨rfl, .mk routines hroutines⟩
  · split
    · exact ⟨rfl, .mk routines hroutines⟩
    · exact ⟨rfl, .mk routines hroutines⟩

/-- Leaving a routine puts the pointer of the value stack back, wherever it is. -/
theorem leave_of_bytes {stack : Stack} (hbytes : stack.bytes = m.stack.bytes)
    (h : m.leave = (.ok (), m')) : { m with stack := stack }.leave = (.ok (), m') := by
  obtain ⟨bytes, pointer, hle⟩ := stack
  obtain rfl : bytes = m.stack.bytes := hbytes
  unfold Machine.leave at h ⊢
  dsimp only at h ⊢
  cases hback : m.frames.back? with
  | none =>
    rw [hback] at h
    cases (Prod.mk.inj h).1
  | some f =>
    rw [hback] at h
    dsimp only at h ⊢
    unfold Stack.restore at h ⊢
    by_cases hbase : f.base ≤ m.stack.capacity
    · rw [dif_pos hbase] at h
      rw [dif_pos (show f.base ≤ Stack.capacity ⟨m.stack.bytes, pointer, hle⟩ from hbase)]
      exact h
    · rw [dif_neg hbase] at h
      cases (Prod.mk.inj h).1

end Machine

/-- **What a routine comes to that was entered on twin machines.** Leaving it puts the pointers of
the value stacks back, so that they agree after an underflow, too. -/
theorem leaving_sameEnd {m m₁ m₁' : Machine σ} {r : Routine} {address : UInt32}
    {x y : Eval σ UInt32} (he : m.Entered r m₁) (hx : x.Steady)
    (h : SameEnd Machine.Astray (x m₁) (y m₁')) :
    SameEnd Machine.Twin (leaving address x m₁) (leaving address y m₁') := by
  have hsteady := hx m₁
  unfold leaving
  generalize x m₁ = o at h hsteady ⊢
  generalize y m₁' = o' at h ⊢
  cases h with
  | timeout => exact .timeout
  | @same o m₂ m₂' htwin =>
    obtain ⟨hanswer, hleft⟩ := htwin.leave
    obtain ⟨m₃, hleave, -⟩ := he.leave (hsteady o m₂ rfl)
    rw [hleave] at hanswer hleft
    have hleave' : m₂'.leave = (.ok (), m₂'.leave.2) := Prod.ext hanswer rfl
    cases o with
    | error s =>
      dsimp only
      rw [hleave]
      exact .same hleft
    | ok v =>
      dsimp only
      rw [hleave, hleave']
      exact .same (hleft.record (.left address v))
  | @starved f f' m₂ m₂' hf hastray =>
    obtain ⟨stack, hbytes, htwin⟩ := hastray
    obtain ⟨m₃, hleave, -⟩ := he.leave (hsteady _ m₂ rfl)
    have hleft := htwin.leave.2
    rw [Machine.leave_of_bytes hbytes hleave] at hleft
    dsimp only
    rw [hleave]
    exact .starved hf hleft

/-! ## Calls -/

variable [Host σ]

/-- **The meaning of a call**, with routines read in a given way. -/
def invokeBy (read : Machine.Reader) : (fuel : Nat) → UInt32 → List UInt32 → Eval σ UInt32
  | 0, _, _ => timeout
  | fuel + 1, address, args => do
    let r ← attempt fun m => m.enterBy read address args
    leaving address (r.body.run (invokeBy read fuel) fuel r.body.stmts)

theorem invokeBy_decode (fuel : Nat) :
    (invokeBy Routine.decode fuel : UInt32 → List UInt32 → Eval σ UInt32) = invoke fuel := by
  induction fuel with
  | zero => rfl
  | succ fuel ih =>
    funext address args
    rw [invokeBy, invoke, ih]
    rfl

theorem invokeBy_succ_apply {read : Machine.Reader} {fuel : Nat} {address : UInt32}
    {args : List UInt32} (m : Machine σ) :
    invokeBy read (fuel + 1) address args m =
      match m.enterBy read address args with
      | (.ok r, m) => leaving address (r.body.run (invokeBy read fuel) fuel r.body.stmts) m
      | (.error f, m) => some (.error (.fault f), m) := by
  rw [invokeBy, bind_apply, attempt]
  rcases m.enterBy read address args with ⟨_ | _, _⟩ <;> rfl

/-- **The calls of twin machines come to the same end**, also if the second reads the twins of the
routines that the first reads. -/
theorem invoke_twin {read : Machine.Reader} (hread : ∀ memory address ramStart,
      Matched Routine.Twin (Routine.decode memory address ramStart) (read memory address ramStart))
    (fuel : Nat) (address : UInt32) (args : List UInt32) {m m' : Machine σ} (h : m.Twin m') :
    SameEnd Machine.Twin (invoke fuel address args m) (invokeBy read fuel address args m') := by
  induction fuel generalizing address args m m' with
  | zero => exact .timeout
  | succ fuel ih =>
    have hentry := h.enterBy hread address args
    have hspec := (m.enter_spec address args).1
    rw [invoke_succ_apply, invokeBy_succ_apply, ← m.enterBy_decode]
    rw [← m.enterBy_decode] at hspec
    generalize m.enterBy Routine.decode address args = q at hentry hspec ⊢
    generalize m'.enterBy read address args = q' at hentry ⊢
    obtain ⟨x, m₁⟩ := q
    obtain ⟨x', m₁'⟩ := q'
    obtain ⟨hx, hm₁⟩ := hentry
    cases hx with
    | error f => exact .same hm₁
    | @ok r r' hr =>
      have hcalls : ∀ a vs,
          Eval.Twin (invoke fuel a vs : Eval σ UInt32) (invokeBy read fuel a vs) :=
        fun a vs n n' hn => (ih a vs hn).mono fun _ _ => Machine.Twin.astray
      have hbody := Body.run_twin hcalls hr.body fuel hr.body.stmts m₁ m₁' hm₁
      exact leaving_sameEnd (hspec r m₁ rfl) (r.body.run_steady (invoke_steady fuel) fuel _) hbody

/-- **The call of a routine** by the meaning of its body, with routines read in a given way. A
halted machine answers 0. -/
def Machine.callBy (read : Machine.Reader) (m : Machine σ) (fuel : Nat) (address : UInt32)
    (args : List UInt32) : Option (Except Fault UInt32 × Machine σ) :=
  if m.halted then some (.ok 0, m)
  else (invokeBy read fuel address args m).map fun q => (answer q.1, q.2)

/-- **A call comes to an end** when its meaning has an outcome. -/
theorem Machine.callBy_decode_iff {m : Machine σ} (hs : m.Sound) (address : UInt32)
    (args : List UInt32) (x : Except Fault UInt32 × Machine σ) :
    (∃ fuel, m.callBy Routine.decode fuel address args = some x) ↔
      ∃ fuel, m.call fuel address args = some x := by
  unfold Machine.callBy Machine.call
  by_cases hm : m.halted = true
  · simp only [hm, if_true]
  have hsucc : (∃ fuel, (invoke fuel address args m).map (fun q => (answer q.1, q.2)) = some x) ↔
      ∃ fuel, (invoke (fuel + 1) address args m).map (fun q => (answer q.1, q.2)) = some x := by
    constructor
    · rintro ⟨_ | fuel, h⟩
      · cases h
      · exact ⟨fuel, h⟩
    · rintro ⟨fuel, h⟩
      exact ⟨fuel + 1, h⟩
  have hspec := (m.enter_spec address args).1
  simp only [hm, invokeBy_decode, hsucc, invoke_succ_apply, Bool.false_eq_true, if_false]
  generalize m.enter address args = q at hspec ⊢
  obtain ⟨f | r, m₁⟩ := q
  · exact Iff.rfl
  · have hsettles := (hspec r m₁ rfl).settles_iff (Bool.eq_false_iff.mpr hm) hs address x
    dsimp only
    rw [← hsettles]
    refine exists_congr fun fuel => ?_
    rw [Machine.runFrom, Run.finish_eq]
    cases (Progress.running ⟨m₁, .ofRoutine r address, []⟩).after fuel with
    | running r => simp
    | finished result last => simp

/-- **The same answers** of two calls, up to the two reports of one underflow. -/
inductive SameAnswer : Except Fault UInt32 → Except Fault UInt32 → Prop
  | same (result : Except Fault UInt32) : SameAnswer result result
  | starved {f f' : Fault} (h : f.Starved f') : SameAnswer (.error f) (.error f')

/-- **Two ways to make a call agree**: if one of them comes to an end then so does the other, with
the same answer and on a twin machine. -/
structure SameCalls (p q : Nat → Option (Except Fault UInt32 × Machine σ)) : Prop where
  forth : ∀ fuel result m, p fuel = some (result, m) →
    ∃ fuel' result' m', q fuel' = some (result', m') ∧ SameAnswer result result' ∧ m.Twin m'
  back : ∀ fuel result' m', q fuel = some (result', m') →
    ∃ fuel' result m, p fuel' = some (result, m) ∧ SameAnswer result result' ∧ m.Twin m'

omit [Host σ] in
theorem SameCalls.congr {p p' q q' : Nat → Option (Except Fault UInt32 × Machine σ)}
    (hp : ∀ x, (∃ fuel, p fuel = some x) ↔ ∃ fuel, p' fuel = some x)
    (hq : ∀ x, (∃ fuel, q fuel = some x) ↔ ∃ fuel, q' fuel = some x) (h : SameCalls p q) :
    SameCalls p' q' where
  forth fuel result m hend := by
    obtain ⟨fuel₁, hend₁⟩ := (hp _).mpr ⟨fuel, hend⟩
    obtain ⟨fuel₂, result', m', hend₂, hsame⟩ := h.forth fuel₁ result m hend₁
    obtain ⟨fuel₃, hend₃⟩ := (hq _).mp ⟨fuel₂, hend₂⟩
    exact ⟨fuel₃, result', m', hend₃, hsame⟩
  back fuel result' m' hend := by
    obtain ⟨fuel₁, hend₁⟩ := (hq _).mpr ⟨fuel, hend⟩
    obtain ⟨fuel₂, result, m, hend₂, hsame⟩ := h.back fuel₁ result' m' hend₁
    obtain ⟨fuel₃, hend₃⟩ := (hp _).mp ⟨fuel₂, hend₂⟩
    exact ⟨fuel₃, result, m, hend₃, hsame⟩

omit [Host σ] in
theorem Eval.SameEnd.answers {o o' : Option (Except Stop UInt32 × Machine σ)}
    (h : SameEnd Machine.Twin o o') :
    Option.Rel (fun q q' : Except Fault UInt32 × Machine σ => SameAnswer q.1 q'.1 ∧ q.2.Twin q'.2)
      (o.map fun q => (answer q.1, q.2)) (o'.map fun q => (answer q.1, q.2)) := by
  cases h with
  | timeout => exact .none
  | same h => exact .some ⟨.same _, h⟩
  | starved hf h => exact .some ⟨.starved hf, h⟩

omit [Host σ] in
/-- Calls agree that do so for each fuel. -/
theorem SameCalls.of_rel {p q : Nat → Option (Except Fault UInt32 × Machine σ)}
    (h : ∀ fuel, Option.Rel (fun x y => SameAnswer x.1 y.1 ∧ x.2.Twin y.2) (p fuel) (q fuel)) :
    SameCalls p q where
  forth fuel result m hend := by
    have hboth := h fuel
    rw [hend] at hboth
    generalize hq : q fuel = other at hboth
    cases hboth with
    | some hsame => exact ⟨fuel, _, _, hq, hsame⟩
  back fuel result' m' hend := by
    have hboth := h fuel
    rw [hend] at hboth
    generalize hp : p fuel = other at hboth
    cases hboth with
    | some hsame => exact ⟨fuel, _, _, hp, hsame⟩

/-- **Calls on twin machines agree** if the routines that are not cached are read as twins. -/
theorem Machine.Twin.sameCalls {read : Machine.Reader} (hread : ∀ memory address ramStart,
      Matched Routine.Twin (Routine.decode memory address ramStart) (read memory address ramStart))
    {m m' : Machine σ} (h : m.Twin m') (address : UInt32) (args : List UInt32) :
    SameCalls (fun fuel => m.callBy Routine.decode fuel address args)
      fun fuel => m'.callBy read fuel address args := by
  have hhalted : m'.halted = m.halted := by
    cases h
    rfl
  refine .of_rel fun fuel => ?_
  unfold Machine.callBy
  rw [hhalted]
  split
  · exact .some ⟨.same _, h⟩
  · rw [invokeBy_decode]
    exact (invoke_twin hread fuel address args h).answers

end StoryVM
