import Mathlib.Data.List.Forall2
import StoryVM.Proofs.InstrRefinement

/-! # Twins

A call with arguments from the value stack can be written in two ways: as a call with a list of
pops, or as a call that counts its arguments when it runs. Twins are expressions, and so statements,
routines and machines, that differ in such calls only. Twin machines cannot be told apart by calling
routines, except by the numbers in the report of an underflow.

* `Eval.popArguments_twin`: both ways pop the same arguments, or underflow.
* `Eval.Twin`: computations that come to the same end on twin machines. Computations in sequence are
  twins if their parts are (`Eval.Twin.bind`).
* `Expr.eval_twin`, `Stmt.exec_twin`, `Body.run_twin`: one lemma for each layer of the tree, for any
  twin meanings of calls. -/

namespace StoryVM

/-! ## Expressions, statements and routines -/

namespace Expr

/-- An expression without its operands. -/
def head : Expr → Expr
  | .load w _ => .load w .pop
  | .arith op _ _ => .arith op .pop .pop
  | .compare op _ _ => .compare op .pop .pop
  | .convert w signed _ => .convert w signed .pop
  | .call _ args => .call .pop (args.map fun _ => .pop)
  | .callCounted _ _ => .callCounted .pop .pop
  | .glk args => .glk (args.map fun _ => .pop)
  | e => e

theorem length_children_head (e : Expr) : e.head.children.length = e.children.length := by
  cases e <;> simp [head, children]

theorem scoped_iff {locals : List Local} (e : Expr) :
    e.Scoped locals ↔ e.head.Scoped locals ∧ ∀ c ∈ e.children, c.Scoped locals := by
  cases e <;> simp [head, children, Scoped, scopedAll_iff]

/-- **Twin expressions.** -/
inductive Twin : Expr → Expr → Prop
  /-- The same node with twin operands. -/
  | node {e e' : Expr} (hhead : e.head = e'.head)
    (hoperands : ∀ (i : Nat) (c c' : Expr), e.children[i]? = some c → e'.children[i]? = some c' →
      Twin c c') : Twin e e'
  /-- A counted call, written with pops. -/
  | inlined {address address' : Expr} (count : UInt32) (h : Twin address address') :
    Twin (.callCounted address (.ofBits count))
      (.call address' (List.replicate count.toNat .pop))
  /-- A call with pops, written as a counted call. -/
  | counted {address address' : Expr} (count : UInt32) (h : Twin address address') :
    Twin (.call address (List.replicate count.toNat .pop))
      (.callCounted address' (.ofBits count))

theorem Twin.refl (e : Expr) : e.Twin e := by
  induction e using Expr.childInduction with
  | h e ih =>
    refine .node rfl fun i c c' hc hc' => ?_
    obtain rfl : c = c' := Option.some.inj (hc.symm.trans hc')
    exact ih c (List.mem_of_getElem? hc)

theorem Twin.length_children {e e' : Expr} (h : e.head = e'.head) :
    e.children.length = e'.children.length := by
  rw [← length_children_head e, ← length_children_head e', h]

theorem Twin.scoped {e e' : Expr} {locals : List Local} (h : e.Twin e') (hs : e.Scoped locals) :
    e'.Scoped locals := by
  have hpops : ∀ count, Expr.ScopedAll locals (List.replicate count .pop) := by
    intro count
    rw [scopedAll_iff]
    intro e he
    rw [List.eq_of_mem_replicate he]
    trivial
  induction h with
  | node hhead hoperands ih =>
    obtain ⟨hroot, hchildren⟩ := (scoped_iff _).mp hs
    refine (scoped_iff _).mpr ⟨hhead ▸ hroot, fun c' hc' => ?_⟩
    obtain ⟨i, hi⟩ := List.getElem?_of_mem hc'
    have hlt : i < _ := (List.getElem?_eq_some_iff.mp hi).1
    rw [← Twin.length_children hhead] at hlt
    have hc := List.getElem?_eq_getElem hlt
    exact ih i _ c' hc hi (hchildren _ (List.getElem_mem hlt))
  | inlined count _ ih => exact ⟨ih hs.1, hpops _⟩
  | counted count _ ih => exact ⟨ih hs.1, trivial⟩

end Expr

namespace Stmt

/-- **Twin statements**: the same statement with twin expressions. -/
inductive Twin : Stmt → Stmt → Prop
  | label (l : Label) : Twin (.label l) (.label l)
  | eval {e e' : Expr} (h : e.Twin e') : Twin (.eval e) (.eval e')
  | writeLocal (var : Local) {e e' : Expr} (h : e.Twin e') :
    Twin (.writeLocal var e) (.writeLocal var e')
  | store (w : Width) {a a' e e' : Expr} (ha : a.Twin a') (h : e.Twin e') :
    Twin (.store w a e) (.store w a' e')
  | push {e e' : Expr} (h : e.Twin e') : Twin (.push e) (.push e')
  | copyStack {e e' : Expr} (h : e.Twin e') : Twin (.copyStack e) (.copyStack e')
  | jump (l : Label) : Twin (.jump l) (.jump l)
  | branch {e e' : Expr} {s s' : Stmt} (h : e.Twin e') (hs : Twin s s') :
    Twin (.branch e s) (.branch e' s')
  | ret {e e' : Expr} (h : e.Twin e') : Twin (.ret e) (.ret e')
  | quit : Twin .quit .quit
  | putChar {e e' : Expr} (h : e.Twin e') : Twin (.putChar e) (.putChar e')
  | putNumber {e e' : Expr} (h : e.Twin e') : Twin (.putNumber e) (.putNumber e')
  | putString {e e' : Expr} (h : e.Twin e') : Twin (.putString e) (.putString e')
  | restoreUndo : Twin .restoreUndo .restoreUndo

theorem Twin.refl (s : Stmt) : s.Twin s := by
  induction s with
  | branch cond guarded ih => exact .branch (.refl cond) ih
  | store w address value => exact .store w (.refl address) (.refl value)
  | _ => constructor <;> exact .refl _

variable {s s' : Stmt}

theorem Twin.scoped {locals : List Local} (h : s.Twin s') (hs : s.Scoped locals) :
    s'.Scoped locals := by
  induction h with
  | label | jump | quit | restoreUndo => trivial
  | eval h | push h | copyStack h | ret h | putChar h | putNumber h | putString h =>
    exact h.scoped hs
  | writeLocal var h => exact ⟨hs.1, h.scoped hs.2⟩
  | store w ha h => exact ⟨ha.scoped hs.1, h.scoped hs.2⟩
  | branch h _ ih => exact ⟨h.scoped hs.1, ih hs.2⟩

theorem Twin.names (h : s.Twin s') : s'.names = s.names := by
  induction h with
  | branch _ _ ih => exact ih
  | _ => rfl

theorem Twin.label? (h : s.Twin s') : s'.label? = s.label? := by
  cases h <;> rfl

theorem Twin.jump? (h : s.Twin s') : s'.jump? = s.jump? := by
  cases h <;> rfl

theorem Twin.eq_label_iff (h : s.Twin s') (l : Label) : s' = .label l ↔ s = .label l := by
  cases h <;> simp

theorem Twin.guardOk (h : s.Twin s') (hs : s.GuardOk) : s'.GuardOk := by
  rintro cond guarded rfl
  cases h with
  | branch _ hguarded =>
    obtain ⟨l, rfl⟩ | ⟨e, rfl⟩ := hs _ _ rfl
    · cases hguarded
      exact .inl ⟨l, rfl⟩
    · cases hguarded
      exact .inr ⟨_, rfl⟩

end Stmt

/-- **Twin bodies.** -/
structure Body.Twin (b b' : Body) : Prop where
  locals : b'.locals = b.locals
  labelCount : b'.labelCount = b.labelCount
  stmts : List.Forall₂ Stmt.Twin b.stmts b'.stmts

/-- **Twin routines**: they have twin bodies, and the second is laid out. -/
structure Routine.Twin (r r' : Routine) : Prop where
  convention : r'.convention = r.convention
  address : r'.address = r.address
  body : r.body.Twin r'.body
  laidOut : Routine.ofBody r'.convention r'.address r'.body = .ok r'

/-- Two results that match: the same fault, or values that are related. -/
inductive Matched {ε α : Type} (R : α → α → Prop) : Except ε α → Except ε α → Prop
  | error (e : ε) : Matched R (.error e) (.error e)
  | ok {a b : α} (h : R a b) : Matched R (.ok a) (.ok b)

theorem Stmt.Twin.refl_all (stmts : List Stmt) : List.Forall₂ Stmt.Twin stmts stmts :=
  List.forall₂_same.mpr fun s _ => .refl s

theorem exists_twin {stmts stmts' : List Stmt} (h : List.Forall₂ Stmt.Twin stmts stmts') {s' : Stmt}
    (hs : s' ∈ stmts') : ∃ s ∈ stmts, s.Twin s' := by
  induction h with
  | nil => cases hs
  | cons hhead _ ih =>
    rcases List.mem_cons.mp hs with rfl | hs
    · exact ⟨_, List.mem_cons_self, hhead⟩
    · obtain ⟨s, hmem, htwin⟩ := ih hs
      exact ⟨s, List.mem_cons_of_mem _ hmem, htwin⟩

theorem labelsOf_twin {stmts stmts' : List Stmt} (h : List.Forall₂ Stmt.Twin stmts stmts') :
    labelsOf stmts' = labelsOf stmts := by
  induction h with
  | nil => rfl
  | cons hhead _ ih => rw [labelsOf_cons, labelsOf_cons, hhead.label?, ih]

theorem Body.Twin.normal {b b' : Body} (h : b.Twin b') (hb : b.Normal) : b'.Normal where
  head := by
    obtain ⟨rest, hrest⟩ := hb.head
    have hstmts := h.stmts
    rw [hrest] at hstmts
    obtain ⟨s', rest', hs', -, hb'⟩ := List.forall₂_cons_left_iff.mp hstmts
    exact ⟨rest', by rw [hb', (hs'.eq_label_iff 0).mpr rfl]⟩
  labels := by rw [labelsOf_twin h.stmts, hb.labels, h.labelCount]
  named s' hs' l hl := by
    obtain ⟨s, hs, htwin⟩ := exists_twin h.stmts hs'
    rw [h.labelCount]
    exact hb.named s hs l (htwin.names ▸ hl)
  guards s' hs' := by
    obtain ⟨s, hs, htwin⟩ := exists_twin h.stmts hs'
    exact htwin.guardOk (hb.guards s hs)

namespace Routine

theorem Twin.refl {r : Routine} (h : Routine.ofBody r.convention r.address r.body = .ok r) :
    r.Twin r :=
  ⟨rfl, rfl, ⟨rfl, rfl, Stmt.Twin.refl_all _⟩, h⟩

/-- **The twin of a sound routine is sound.** -/
theorem Twin.sound {r r' : Routine} (h : r.Twin r') (hr : r.Sound) : r'.Sound := by
  have hnormal : r'.body.Normal := h.body.normal hr.normal
  obtain ⟨r₁, hr₁, -, -, -, hops, hstarts⟩ := ofBody_normal hnormal r'.convention r'.address
  obtain rfl : r' = r₁ := Except.ok.inj (h.laidOut.symm.trans hr₁)
  refine ⟨hnormal, fun s' hs' => ?_, hops, hstarts⟩
  obtain ⟨s, hs, htwin⟩ := exists_twin h.body.stmts hs'
  rw [h.body.locals]
  exact htwin.scoped (hr.inScope s hs)

theorem laidOut_of_decode {memory : Memory} {address ramStart : UInt32} {r : Routine}
    (h : decode memory address ramStart = .ok r) :
    Routine.ofBody r.convention r.address r.body = .ok r := by
  obtain ⟨convention, groups, code, hcode, hr⟩ := decode_ok_iff.mp h
  obtain ⟨r', hr', rfl, rfl, hbody, -⟩ := hcode.ofBody
  obtain rfl : r = r' := Except.ok.inj (hr.symm.trans hr')
  rw [hbody]
  exact hr

theorem decode_twin (memory : Memory) (address ramStart : UInt32) :
    Matched Twin (decode memory address ramStart) (decode memory address ramStart) := by
  cases h : decode memory address ramStart with
  | error f => exact .error f
  | ok r => exact .ok (.refl (laidOut_of_decode h))

end Routine

/-! ## Popping arguments -/

namespace Stack

theorem pop_dword_of_le {s : Stack} (h : 4 ≤ s.pointer) : ∃ v s', s.pop .dword = .ok (v, s') ∧
    s'.bytes = s.bytes ∧ s'.pointer = s.pointer - 4 := by
  unfold pop
  rw [if_pos (show Width.dword.bytes ≤ s.pointer from h)]
  exact ⟨_, _, rfl, rfl, rfl⟩

theorem pop_dword_of_lt {s : Stack} (h : s.pointer < 4) :
    s.pop .dword = .error (.stackUnderflow s.pointer 4) := by
  unfold pop
  exact if_neg (Nat.not_le.mpr h)

theorem popDwords_succ {s s' : Stack} {n : Nat} {v : UInt32} (h : s.pop .dword = .ok (v, s')) :
    s.popDwords (n + 1) = (s'.popDwords n).map fun q => (v :: q.1, q.2) := by
  simp only [popDwords, h, Bind.bind, Except.bind]
  cases s'.popDwords n <;> rfl

/-- **Dwords that are there can be popped.** -/
theorem popDwords_of_le {s : Stack} {n : Nat} (h : 4 * n ≤ s.pointer) :
    ∃ vs s', s.popDwords n = .ok (vs, s') ∧ vs.length = n := by
  induction n generalizing s with
  | zero => exact ⟨[], s, rfl, rfl⟩
  | succ n ih =>
    obtain ⟨v, s₁, hpop, -, hpointer⟩ := pop_dword_of_le (s := s) (by omega)
    obtain ⟨vs, s₂, hrest, hlength⟩ := ih (s := s₁) (by omega)
    exact ⟨v :: vs, s₂, by rw [popDwords_succ hpop, hrest]; rfl, congrArg (· + 1) hlength⟩

end Stack

/-! ## Machines -/

variable {σ α β : Type}

namespace Machine

/-- **Twin machines**: they have read twin routines, and are the same otherwise. -/
inductive Twin (m : Machine σ) : Machine σ → Prop
  | mk (routines : Std.TreeMap UInt32 Routine)
    (h : ∀ a : UInt32, Option.Rel Routine.Twin m.routines[a]? routines[a]?) :
    Twin m { m with routines := routines }

/-- Machines that are twins but for the pointers of their value stacks. -/
def Astray (m m' : Machine σ) : Prop :=
  ∃ stack : Stack, stack.bytes = m.stack.bytes ∧ Twin { m with stack := stack } m'

theorem Twin.astray {m m' : Machine σ} (h : m.Twin m') : m.Astray m' := ⟨m.stack, rfl, h⟩

theorem Twin.sound {m m' : Machine σ} (h : m.Twin m') (hm : m.Sound) : m'.Sound := by
  obtain ⟨routines, hroutines⟩ := h
  intro a r' hr'
  have hrel := hroutines a
  rw [show routines[a]? = some r' from hr'] at hrel
  cases hr : m.routines[a]? with
  | none =>
    rw [hr] at hrel
    cases hrel
  | some r =>
    rw [hr] at hrel
    cases hrel with
    | some h => exact h.sound (hm a r hr)

theorem CachesDecoded.twin {m : Machine σ} (h : m.CachesDecoded) : m.Twin m := by
  refine .mk m.routines fun a => ?_
  cases hr : m.routines[a]? with
  | none => exact .none
  | some r =>
    obtain ⟨memory, address, ramStart, hdecode⟩ := h a r hr
    exact .some (.refl (Routine.laidOut_of_decode hdecode))

end Machine

/-- **The two reports of one underflow.** A counted call reports all the bytes that its arguments
take and what is there; a call with pops reports the first dword that is missing. -/
inductive Fault.Starved : Fault → Fault → Prop
  | inlined {pointer : Nat} {count : UInt32} (h : pointer < 4 * count.toNat) :
    Starved (.stackUnderflow pointer (Stack.reportedBytes count)) (.stackUnderflow (pointer % 4) 4)
  | counted {pointer : Nat} {count : UInt32} (h : pointer < 4 * count.toNat) :
    Starved (.stackUnderflow (pointer % 4) 4) (.stackUnderflow pointer (Stack.reportedBytes count))

namespace Eval

/-- **The same end of two computations**: the same outcome on twin machines, or the two reports of
one underflow. The machines that the underflow leaves behind are related by `R`. -/
inductive SameEnd (R : Machine σ → Machine σ → Prop) :
    Option (Except Stop α × Machine σ) → Option (Except Stop α × Machine σ) → Prop
  | timeout : SameEnd R none none
  | same {o : Except Stop α} {m m' : Machine σ} (h : m.Twin m') :
    SameEnd R (some (o, m)) (some (o, m'))
  | starved {f f' : Fault} {m m' : Machine σ} (hf : f.Starved f') (h : R m m') :
    SameEnd R (some (.error (.fault f), m)) (some (.error (.fault f'), m'))

theorem SameEnd.mono {R S : Machine σ → Machine σ → Prop} (hRS : ∀ m m', R m m' → S m m')
    {o o' : Option (Except Stop α × Machine σ)} (h : SameEnd R o o') : SameEnd S o o' := by
  cases h with
  | timeout => exact .timeout
  | same h => exact .same h
  | starved hf h => exact .starved hf (hRS _ _ h)

/-- **Twin computations** come to the same end on twin machines. After an underflow the pointers of
the value stacks may differ. -/
def Twin (x y : Eval σ α) : Prop :=
  ∀ m m', m.Twin m' → SameEnd Machine.Astray (x m) (y m')

theorem Twin.bind {x y : Eval σ α} {f g : α → Eval σ β} (hx : Twin x y)
    (hf : ∀ a, Twin (f a) (g a)) : Twin (x >>= f) (y >>= g) := by
  intro m m' h
  have hend := hx m m' h
  rw [bind_apply, bind_apply]
  generalize x m = o at hend ⊢
  generalize y m' = o' at hend ⊢
  cases hend with
  | timeout => exact .timeout
  | @same o m₁ m₁' h₁ =>
    cases o with
    | error s => exact .same h₁
    | ok a => exact hf a m₁ m₁' h₁
  | starved hf h₁ => exact .starved hf h₁

theorem Twin.pure (a : α) : Twin (Pure.pure a : Eval σ α) (Pure.pure a) :=
  fun _ _ h => .same h

theorem Twin.fail (f : Fault) : Twin (Eval.fail f : Eval σ α) (Eval.fail f) :=
  fun _ _ h => .same h

/-- An operation of the machine that does not look at the routines that were read. -/
theorem Twin.attempt {f : Machine σ → Except Fault α × Machine σ}
    (h : ∀ m (routines : Std.TreeMap UInt32 Routine), f { m with routines := routines } =
      ((f m).1, { (f m).2 with routines := routines })) : Twin (attempt f) (attempt f) := by
  intro m m' hm
  obtain ⟨routines, hroutines⟩ := hm
  -- With its own routines a machine is itself, so the operation keeps them.
  have hkeep : (f m).2.routines = m.routines :=
    congrArg (fun q => Machine.routines q.2) (h m m.routines)
  have htwin : (f m).2.Twin { (f m).2 with routines := routines } :=
    .mk routines (hkeep ▸ hroutines)
  unfold Eval.attempt
  rw [h m routines]
  clear hkeep
  generalize f m = q at htwin ⊢
  rcases q with ⟨e | a, m₁⟩
  · exact .same htwin
  · exact .same htwin

theorem Twin.inspect {f : Machine σ → Except Fault α}
    (h : ∀ m (routines : Std.TreeMap UInt32 Routine), f { m with routines := routines } = f m) :
    Twin (inspect f) (inspect f) :=
  .attempt fun m routines => by rw [h]

theorem Twin.update {f : Machine σ → Except Fault (α × Machine σ)}
    (h : ∀ m (routines : Std.TreeMap UInt32 Routine), f { m with routines := routines } =
      (f m).map fun q => (q.1, { q.2 with routines := routines })) :
    Twin (update f) (update f) := by
  refine .attempt fun m routines => ?_
  rw [h]
  rcases f m with _ | ⟨a, m₁⟩ <;> rfl

/-! ## The operations of the machine -/

theorem readLocal_twin (index : Nat) : Twin (readLocal index : Eval σ UInt32) (readLocal index) :=
  .inspect fun _ _ => rfl

theorem readMemory_twin (w : Width) (a : UInt32) :
    Twin (readMemory w a : Eval σ UInt32) (readMemory w a) :=
  .inspect fun _ _ => rfl

theorem memorySize_twin : Twin (memorySize : Eval σ UInt32) memorySize :=
  .inspect fun _ _ => rfl

theorem writeLocal_twin (index : Nat) (v : UInt32) :
    Twin (writeLocal index v : Eval σ Unit) (writeLocal index v) := by
  refine .update fun m routines => ?_
  show (m.currentFrame >>= fun f => _) = Except.map _ (m.currentFrame >>= fun f => _)
  cases m.currentFrame with
  | error f => rfl
  | ok f =>
    show (f.write index v >>= fun f => _) = Except.map _ (f.write index v >>= fun f => _)
    cases f.write index v <;> rfl

theorem writeMemory_twin (w : Width) (a v : UInt32) :
    Twin (writeMemory w a v : Eval σ Unit) (writeMemory w a v) := by
  refine .update fun m routines => ?_
  dsimp only
  cases m.memory.write w a v <;> rfl

theorem popValue_twin : Twin (popValue : Eval σ UInt32) popValue := by
  refine .update fun m routines => ?_
  dsimp only
  cases m.stack.pop .dword <;> rfl

theorem popArguments_self (count : UInt32) :
    Twin (popArguments count : Eval σ (List UInt32)) (popArguments count) := by
  refine .update fun m routines => ?_
  dsimp only
  cases m.stack.popArguments count <;> rfl

theorem pushValue_twin (v : UInt32) : Twin (pushValue v : Eval σ Unit) (pushValue v) := by
  refine .update fun m routines => ?_
  dsimp only
  cases m.stack.push .dword v <;> rfl

theorem copyStack_twin (count : UInt32) :
    Twin (copyStack count : Eval σ Unit) (copyStack count) := by
  refine .update fun m routines => ?_
  dsimp only
  cases m.stack.copyDwords count <;> rfl

theorem countStep_twin : Twin (countStep : Eval σ Unit) countStep := by
  refine .attempt fun m routines => ?_
  unfold Machine.countStep
  dsimp only
  split
  · rfl
  · split <;> rfl

theorem arith_twin (op : ArithOp) (l r : UInt32) :
    Twin (arith op l r : Eval σ UInt32) (arith op l r) := by
  unfold arith
  split
  · exact .pure _
  · exact .fail _

theorem halt_twin : Twin (halt : Eval σ α) halt := by
  intro m m' h
  obtain ⟨routines, hroutines⟩ := h
  refine .same ?_
  unfold Machine.halt
  dsimp only
  split
  · exact .mk routines hroutines
  · exact .mk routines hroutines

variable [Host σ]

theorem dispatch_twin (vs : List UInt32) : Twin (dispatch vs : Eval σ UInt32) (dispatch vs) := by
  refine .attempt fun m routines => ?_
  unfold Machine.dispatch
  split
  · next selector count =>
    dsimp only
    cases m.stack.popArguments count <;> rfl
  · rfl

theorem putChar_twin (code : UInt32) : Twin (putChar code : Eval σ Unit) (putChar code) :=
  .update fun _ _ => rfl

theorem putNumber_twin (v : UInt32) : Twin (putNumber v : Eval σ Unit) (putNumber v) :=
  .update fun _ _ => rfl

theorem putString_twin (a : UInt32) : Twin (putString a : Eval σ Unit) (putString a) := by
  refine .update fun m routines => ?_
  dsimp only
  cases m.memory.readString a <;> rfl

theorem restoreUndo_twin : Twin (restoreUndo : Eval σ Unit) restoreUndo :=
  .attempt fun _ _ => rfl

/-! ## The arguments of a call -/

omit [Host σ]

theorem popValue_apply {m : Machine σ} {v : UInt32} {stack : Stack}
    (h : m.stack.pop .dword = .ok (v, stack)) :
    popValue m = some (.ok v, { m with stack := stack }) := by
  simp only [popValue, update, attempt, h, Bind.bind, Except.bind]
  rfl

/-- Popping one by one what is there. -/
theorem popEach_of_le {n : Nat} {m : Machine σ} {vs : List UInt32} {stack : Stack}
    (h : m.stack.popDwords n = .ok (vs, stack)) (hle : 4 * n ≤ m.stack.pointer) :
    popEach n m = some (.ok vs, { m with stack := stack }) := by
  induction n generalizing m vs stack with
  | zero =>
    obtain ⟨rfl, rfl⟩ := Prod.mk.inj (Except.ok.inj h)
    rfl
  | succ n ih =>
    obtain ⟨v, s₁, hpop, -, hpointer⟩ := Stack.pop_dword_of_le (s := m.stack) (by omega)
    rw [Stack.popDwords_succ hpop] at h
    obtain ⟨⟨us, s₂⟩, hrest, hq⟩ := map_ok_iff.mp h
    obtain ⟨rfl, rfl⟩ := Prod.mk.inj hq
    have hmore : popEach n { m with stack := s₁ } = some (.ok us, { m with stack := s₂ }) :=
      ih hrest (by simp only; omega)
    simp only [popEach, bind_apply, popValue_apply hpop, hmore]
    rfl

/-- Popping one by one more than is there uses up the dwords that are there. -/
theorem popEach_of_lt {n : Nat} {m : Machine σ} (h : m.stack.pointer < 4 * n) :
    ∃ stack : Stack, stack.bytes = m.stack.bytes ∧ popEach n m =
      some (.error (.fault (.stackUnderflow (m.stack.pointer % 4) 4)),
        { m with stack := stack }) := by
  induction n generalizing m with
  | zero => omega
  | succ n ih =>
    by_cases hlt : m.stack.pointer < 4
    · refine ⟨m.stack, rfl, ?_⟩
      have hfail : popValue m = some (.error (.fault (.stackUnderflow m.stack.pointer 4)), m) := by
        simp only [popValue, update, attempt, Stack.pop_dword_of_lt hlt, Bind.bind, Except.bind]
      simp only [popEach, bind_apply, hfail, Nat.mod_eq_of_lt hlt]
    · obtain ⟨v, s₁, hpop, hbytes, hpointer⟩ := Stack.pop_dword_of_le (Nat.not_lt.mp hlt)
      obtain ⟨stack, hstack, hmore⟩ := ih (m := { m with stack := s₁ }) (by simp only; omega)
      refine ⟨stack, hstack.trans hbytes, ?_⟩
      have hmod : s₁.pointer % 4 = m.stack.pointer % 4 := by omega
      simp only [popEach, bind_apply, popValue_apply hpop, hmore, hmod]

theorem popArguments_of_le {count : UInt32} {m : Machine σ} {vs : List UInt32} {stack : Stack}
    (h : m.stack.popDwords count.toNat = .ok (vs, stack))
    (hle : 4 * count.toNat ≤ m.stack.pointer) :
    popArguments count m = some (.ok vs, { m with stack := stack }) := by
  simp only [popArguments, update, attempt, Stack.popArguments, if_pos hle, h, Bind.bind,
    Except.bind]
  rfl

theorem popArguments_of_lt {count : UInt32} {m : Machine σ}
    (h : m.stack.pointer < 4 * count.toNat) : popArguments count m =
      some (.error (.fault (.stackUnderflow m.stack.pointer (Stack.reportedBytes count))), m) := by
  simp only [popArguments, update, attempt, Stack.popArguments, if_neg (Nat.not_le.mpr h),
    Bind.bind, Except.bind]

/-- **Both ways pop the same arguments**, or underflow. -/
theorem popArguments_twin (count : UInt32) :
    Twin (popArguments count : Eval σ (List UInt32)) (popEach count.toNat) := by
  intro m _ hm
  obtain ⟨routines, hroutines⟩ := hm
  by_cases hle : 4 * count.toNat ≤ m.stack.pointer
  · obtain ⟨vs, stack, hpop, -⟩ := Stack.popDwords_of_le hle
    rw [popArguments_of_le hpop hle, popEach_of_le (m := { m with routines := routines }) hpop hle]
    exact .same (.mk routines hroutines)
  · have hlt : m.stack.pointer < 4 * count.toNat := Nat.not_le.mp hle
    obtain ⟨stack, hbytes, heach⟩ := popEach_of_lt (m := { m with routines := routines }) hlt
    rw [popArguments_of_lt hlt, heach]
    exact .starved (.inlined hlt) ⟨stack, hbytes, .mk routines hroutines⟩

theorem popEach_twin (count : UInt32) :
    Twin (popEach count.toNat : Eval σ (List UInt32)) (popArguments count) := by
  intro m _ hm
  obtain ⟨routines, hroutines⟩ := hm
  by_cases hle : 4 * count.toNat ≤ m.stack.pointer
  · obtain ⟨vs, stack, hpop, -⟩ := Stack.popDwords_of_le hle
    rw [popEach_of_le hpop hle, popArguments_of_le (m := { m with routines := routines }) hpop hle]
    exact .same (.mk routines hroutines)
  · have hlt : m.stack.pointer < 4 * count.toNat := Nat.not_le.mp hle
    obtain ⟨stack, hbytes, heach⟩ := popEach_of_lt hlt
    rw [heach, popArguments_of_lt (m := { m with routines := routines }) hlt]
    exact .starved (.counted hlt) ⟨m.stack, hbytes.symm, .mk routines hroutines⟩

theorem Twin.nullary {x y : Eval σ α} (h : Twin x y) (vs : List UInt32) :
    Twin (nullary x vs) (nullary y vs) := by
  unfold Eval.nullary
  split
  · exact h
  · exact .fail _

theorem Twin.unary {f g : UInt32 → Eval σ α} (h : ∀ v, Twin (f v) (g v)) (vs : List UInt32) :
    Twin (unary f vs) (unary g vs) := by
  unfold Eval.unary
  split
  · exact h _
  · exact .fail _

theorem Twin.binary {f g : UInt32 → UInt32 → Eval σ α} (h : ∀ l r, Twin (f l r) (g l r))
    (vs : List UInt32) : Twin (binary f vs) (binary g vs) := by
  unfold Eval.binary
  split
  · exact h _ _
  · exact .fail _

theorem Twin.headed {f g : UInt32 → List UInt32 → Eval σ α} (h : ∀ v vs, Twin (f v vs) (g v vs))
    (vs : List UInt32) : Twin (headed f vs) (headed g vs) := by
  unfold Eval.headed
  split
  · exact h _ _
  · exact .fail _

end Eval

open Eval

/-! ## Expressions, statements and bodies on twin machines -/

section Trees

variable [Host σ] {invoke invoke' : UInt32 → List UInt32 → Eval σ UInt32}

theorem Expr.combine_head (e : Expr) (vs : List UInt32) :
    e.head.combine invoke vs = e.combine invoke vs := by
  cases e <;> rfl

theorem Expr.combine_twin (hi : ∀ a vs, Eval.Twin (invoke a vs) (invoke' a vs)) (e : Expr)
    (vs : List UInt32) : Eval.Twin (e.combine invoke vs) (e.combine invoke' vs) := by
  cases e with
  | const => exact .nullary (.pure _) vs
  | readLocal => exact .nullary (readLocal_twin _) vs
  | load => exact .unary (readMemory_twin _) vs
  | arith => exact .binary (arith_twin _) vs
  | compare => exact .binary (fun _ _ => .pure _) vs
  | convert => exact .unary (fun _ => .pure _) vs
  | call => exact .headed hi vs
  | callCounted => exact .binary (fun a n => .bind (popArguments_self n) (hi a)) vs
  | pop => exact .nullary popValue_twin vs
  | glk => exact dispatch_twin vs
  | memorySize => exact .nullary memorySize_twin vs

theorem Expr.evalAll_twin {es es' : List Expr} (hlength : es.length = es'.length)
    (h : ∀ (i : Nat) (c c' : Expr), es[i]? = some c → es'[i]? = some c' →
      Eval.Twin (c.eval invoke) (c'.eval invoke')) :
    Eval.Twin (Expr.evalAll invoke es) (Expr.evalAll invoke' es') := by
  induction es generalizing es' with
  | nil =>
    obtain rfl := List.eq_nil_of_length_eq_zero hlength.symm
    rw [Expr.evalAll, Expr.evalAll]
    exact .pure _
  | cons e rest ih =>
    obtain ⟨e', rest', rfl⟩ := List.exists_cons_of_length_eq_add_one hlength.symm
    rw [Expr.evalAll, Expr.evalAll]
    refine .bind (h 0 e e' rfl rfl) fun v => .bind ?_ fun vs => .pure _
    exact ih (Nat.succ.inj hlength) fun i c c' hc hc' => h (i + 1) c c' hc hc'

/-- **Twin expressions come to the same end** if calls do. -/
theorem Expr.eval_twin (hi : ∀ a vs, Eval.Twin (invoke a vs) (invoke' a vs)) {e e' : Expr}
    (h : e.Twin e') : Eval.Twin (e.eval invoke) (e'.eval invoke') := by
  induction h with
  | @node e e' hhead hoperands ih =>
    rw [Expr.eval_eq, Expr.eval_eq]
    refine .bind (Expr.evalAll_twin (Expr.Twin.length_children hhead) ih) fun vs => ?_
    rw [← e'.combine_head, ← hhead, e.combine_head]
    exact e.combine_twin hi vs
  | inlined count h ih =>
    simp only [Expr.eval, Expr.eval_ofBits, Expr.evalAll_pops, pure_bind]
    exact .bind ih fun a => .bind (popArguments_twin count) (hi a)
  | counted count h ih =>
    simp only [Expr.eval, Expr.eval_ofBits, Expr.evalAll_pops, pure_bind]
    exact .bind ih fun a => .bind (popEach_twin count) (hi a)

/-- **Twin statements come to the same end** if calls do. -/
theorem Stmt.exec_twin (hi : ∀ a vs, Eval.Twin (invoke a vs) (invoke' a vs)) {s s' : Stmt}
    (h : s.Twin s') : Eval.Twin (s.exec invoke) (s'.exec invoke') := by
  induction h with
  | label l => exact .bind countStep_twin fun _ => .pure _
  | eval h => exact .bind (Expr.eval_twin hi h) fun _ => .pure _
  | writeLocal var h =>
    exact .bind (Expr.eval_twin hi h) fun v => .bind (writeLocal_twin _ v) fun _ => .pure _
  | store w ha h =>
    refine .bind (Expr.eval_twin hi ha) fun a => .bind (Expr.eval_twin hi h) fun v => ?_
    exact .bind (writeMemory_twin w a v) fun _ => .pure _
  | push h => exact .bind (Expr.eval_twin hi h) fun v => .bind (pushValue_twin v) fun _ => .pure _
  | copyStack h =>
    exact .bind (Expr.eval_twin hi h) fun n => .bind (copyStack_twin n) fun _ => .pure _
  | jump l => exact .pure _
  | branch h _ ih =>
    refine .bind (Expr.eval_twin hi h) fun c => ?_
    split
    · exact .pure _
    · exact ih
  | ret h => exact .bind (Expr.eval_twin hi h) fun _ => .pure _
  | quit => exact halt_twin
  | putChar h => exact .bind (Expr.eval_twin hi h) fun v => .bind (putChar_twin v) fun _ => .pure _
  | putNumber h =>
    exact .bind (Expr.eval_twin hi h) fun v => .bind (putNumber_twin v) fun _ => .pure _
  | putString h =>
    exact .bind (Expr.eval_twin hi h) fun a => .bind (putString_twin a) fun _ => .pure _
  | restoreUndo => exact .bind restoreUndo_twin fun _ => .pure _

omit [Host σ] in
theorem Body.at_twin {b b' : Body} (h : b.Twin b') (l : Label) :
    List.Forall₂ Stmt.Twin (b.at l) (b'.at l) := by
  have hdrop : ∀ {stmts stmts' : List Stmt}, List.Forall₂ Stmt.Twin stmts stmts' →
      List.Forall₂ Stmt.Twin (stmts.dropWhile (· ≠ .label l))
        (stmts'.dropWhile (· ≠ .label l)) := by
    intro stmts stmts' hstmts
    induction hstmts with
    | nil => exact .nil
    | @cons s s' rest rest' hs hrest ih =>
      rw [List.dropWhile_cons, List.dropWhile_cons]
      by_cases hl : s = .label l
      · rw [if_neg (by simpa using hl), if_neg (by simpa using (hs.eq_label_iff l).mpr hl)]
        exact .cons hs hrest
      · rw [if_pos (by simpa using hl), if_pos (by simpa using mt (hs.eq_label_iff l).mp hl)]
        exact ih
  exact hdrop h.stmts

/-- **Twin bodies come to the same end** if calls do. -/
theorem Body.run_twin (hi : ∀ a vs, Eval.Twin (invoke a vs) (invoke' a vs)) {b b' : Body}
    (h : b.Twin b') (fuel : Nat) {stmts stmts' : List Stmt}
    (hstmts : List.Forall₂ Stmt.Twin stmts stmts') :
    Eval.Twin (b.run invoke fuel stmts) (b'.run invoke' fuel stmts') := by
  induction fuel generalizing stmts stmts' with
  | zero => exact fun _ _ _ => .timeout
  | succ fuel ih =>
    cases hstmts with
    | nil => exact .pure _
    | cons hs hrest =>
      refine .bind (Stmt.exec_twin hi hs) fun c => ?_
      cases c with
      | next => exact ih hrest
      | goto l =>
        have hat := Body.at_twin h l
        dsimp only
        generalize b.at l = found at hat ⊢
        generalize b'.at l = found' at hat ⊢
        cases hat with
        | nil => exact .fail _
        | cons hs hrest => exact ih (.cons hs hrest)
      | ret v => exact .pure _

end Trees

end StoryVM
