import StoryVM.Proofs.Faults
import StoryVM.Proofs.TwinCalls

/-! # The switch between the two ways to write a call

A call with a constant number of arguments from the value stack is written with pops if that number
is at most `maxInlineArguments`, and as a counted call otherwise. Wherever the switch lies, the
routines that are read differ in such calls only.

* `Routine.decodeUpTo`: reads a routine with the switch somewhere else.
* `Routine.decodeUpTo_twin`: it reads the twin of the routine. -/

namespace StoryVM

namespace Matched

variable {ε α β : Type} {R : α → α → Prop} {S : β → β → Prop}

theorem refl (h : ∀ a, R a a) (x : Except ε α) : Matched R x x := by
  cases x with
  | error e => exact .error e
  | ok a => exact .ok (h a)

theorem bind {x y : Except ε α} {f g : α → Except ε β} (h : Matched R x y)
    (hf : ∀ a b, x = .ok a → R a b → Matched S (f a) (g b)) : Matched S (x >>= f) (y >>= g) := by
  cases h with
  | error e => exact .error e
  | ok h => exact hf _ _ rfl h

theorem mapError {ε' : Type} (f : ε → ε') {x y : Except ε α} (h : Matched R x y) :
    Matched R (x.mapError f) (y.mapError f) := by
  cases h with
  | error e => exact .error (f e)
  | ok h => exact .ok h

/-- A part that both have in common. -/
theorem common {x : Except ε α} {f g : α → Except ε β}
    (hf : ∀ a, x = .ok a → Matched S (f a) (g a)) : Matched S (x >>= f) (x >>= g) := by
  cases x with
  | error e => exact .error e
  | ok a => exact hf a rfl

end Matched

/-! ## Reading with another switch -/

namespace Scope

/-- The call with arguments from the value stack, with pops for up to `limit` of them. -/
def stackCallUpTo (limit : UInt32) (s : Scope) (address count : Operand) :
    Except DecodeFault Expr := do
  if count.kind = .constant ∧ count.value ≤ limit then
    return .call (← s.fetch address) (List.replicate count.value.toNat .pop)
  else
    return .callCounted (← s.fetch address) (← s.fetch count)

/-- What an instruction stands for, with pops for up to `limit` arguments of a call. -/
def lowerUpTo (limit : UInt32) (s : Scope) (i : Instr) : Except DecodeFault Effect :=
  match i.opcode.action, i.loads, i.stores with
  | some .call, [address, count], [d] => do s.assign d (← s.stackCallUpTo limit address count)
  | _, _, _ => s.lower i

end Scope

/-- Binds instructions up to the first that fails, with pops for up to `limit` arguments of a
call. -/
def Binder.bindAllUpTo (limit : UInt32) (b : Binder) : List Instr → Except Fault Binder
  | [] => .ok b
  | i :: rest => do
    let b ← b.place i.address
    let effect ← (b.scope.lowerUpTo limit i).mapError (.decode b.routine)
    (b.append effect).bindAllUpTo limit rest

/-- **Reads the routine at an address**, with pops for up to `limit` arguments of a call. -/
def Routine.decodeUpTo (limit : UInt32) (m : Memory) (address ramStart : UInt32) :
    Except Fault Routine := do
  let (convention, groups, code) ← header m address
  let listing := Listing.scan address code
  let bound ← (binder address ramStart groups).bindAllUpTo limit listing.instrs
  if let some fault := listing.fault then throw fault
  Routine.ofBody convention address (← bound.finish)

theorem Scope.lowerUpTo_max (s : Scope) (i : Instr) :
    s.lowerUpTo maxInlineArguments i = s.lower i := by
  unfold lowerUpTo
  split
  · next ha hl hs =>
    simp only [lower, ha, hl, hs]
    rfl
  · rfl

theorem Binder.bindAllUpTo_max (b : Binder) (instrs : List Instr) :
    b.bindAllUpTo maxInlineArguments instrs = b.bindAll instrs := by
  induction instrs generalizing b with
  | nil => rfl
  | cons i rest ih =>
    unfold bindAllUpTo bindAll bind
    cases b.place i.address with
    | error f => rfl
    | ok b₁ =>
      simp only [Bind.bind, Except.bind, Scope.lowerUpTo_max]
      cases b₁.scope.lower i with
      | error cause => rfl
      | ok e => exact ih (b₁.append e)

theorem Routine.decodeUpTo_max : decodeUpTo maxInlineArguments = decode := by
  have hbinds : Binder.bindAllUpTo maxInlineArguments = Binder.bindAll := by
    funext b instrs
    exact b.bindAllUpTo_max instrs
  funext m address ramStart
  unfold decodeUpTo
  rw [hbinds]
  rfl

/-! ## What is read are twins -/

/-- Effects with twin statements. -/
inductive Effect.Twin : Effect → Effect → Prop
  | same (e : Effect) : Twin e e
  | stmt {s s' : Stmt} (h : s.Twin s') : Twin (.stmt s) (.stmt s')

namespace Scope

variable (limit : UInt32) (s : Scope)

theorem stackCallUpTo_twin (address count : Operand) :
    Matched Expr.Twin (s.stackCall address count) (s.stackCallUpTo limit address count) := by
  have hfetch : count.kind = .constant → s.fetch count = .ok (.ofBits count.value) := by
    intro h
    rw [fetch, h]
  unfold stackCall stackCallUpTo
  by_cases hin : count.kind = .constant ∧ count.value ≤ maxInlineArguments
  · by_cases hin' : count.kind = .constant ∧ count.value ≤ limit
    · rw [if_pos hin, if_pos hin']
      exact .refl Expr.Twin.refl _
    · rw [if_pos hin, if_neg hin']
      refine .common fun a _ => ?_
      rw [hfetch hin.1]
      exact .ok (.counted count.value (.refl a))
  · by_cases hin' : count.kind = .constant ∧ count.value ≤ limit
    · rw [if_neg hin, if_pos hin']
      refine .common fun a _ => ?_
      rw [hfetch hin'.1]
      exact .ok (.inlined count.value (.refl a))
    · rw [if_neg hin, if_neg hin']
      exact .refl Expr.Twin.refl _

theorem assign_twin (d : Operand) {e e' : Expr} (h : e.Twin e') (w : Width) :
    Matched Effect.Twin (s.assign d e w) (s.assign d e' w) := by
  unfold assign
  split
  · split
    · exact .ok (.stmt (.eval h))
    · exact .error _
  · exact .ok (.stmt (.store w (.refl _) h))
  · exact .ok (.stmt (.push h))
  · exact .common fun var _ => .ok (.stmt (.writeLocal var h))
  · exact .ok (.stmt (.store w (.refl _) h))

/-- **What an instruction stands for** is the same up to twins. -/
theorem lowerUpTo_twin (i : Instr) : Matched Effect.Twin (s.lower i) (s.lowerUpTo limit i) := by
  unfold lowerUpTo
  split
  · next address count d ha hl hs =>
    simp only [lower, ha, hl, hs]
    exact .bind (s.stackCallUpTo_twin limit address count) fun e e' _ h => s.assign_twin d h .dword
  · exact .refl Effect.Twin.same _

end Scope

/-! ## Bodies -/

theorem Stmt.Twin.relabel {s s' : Stmt} (h : s.Twin s') (f : Label → Label) :
    (s.relabel f).Twin (s'.relabel f) := by
  unfold Stmt.relabel
  induction h with
  | label l => exact .label (f l)
  | jump l => exact .jump (f l)
  | quit => exact .quit
  | restoreUndo => exact .restoreUndo
  | branch h _ ih =>
    simp only [Transform.stmt, Transform.expr_of_node_id]
    exact .branch h ih
  | store w ha h =>
    simp only [Transform.stmt, Transform.expr_of_node_id]
    exact .store w ha h
  | eval h | writeLocal _ h | push h | copyStack h | ret h | putChar h | putNumber h | putString h =>
    simp only [Transform.stmt, Transform.expr_of_node_id]
    constructor
    exact h

namespace Body

variable {stmts stmts' : List Stmt}

theorem leadingLabel?_twin (h : List.Forall₂ Stmt.Twin stmts stmts') :
    leadingLabel? stmts' = leadingLabel? stmts := by
  cases h with
  | nil => rfl
  | cons hs _ => exact hs.label?

theorem neededLabels_twin (h : List.Forall₂ Stmt.Twin stmts stmts') :
    neededLabels stmts' = neededLabels stmts := by
  induction h with
  | nil => rfl
  | cons hs hrest ih =>
    cases hs with
    | jump l => rw [neededLabels, neededLabels, ih]
    | branch _ hguarded =>
      rw [neededLabels, neededLabels, ih, hguarded.jump?, leadingLabel?_twin hrest]
    | _ => exact ih

theorem prune_twin (needed : List Label) (h : List.Forall₂ Stmt.Twin stmts stmts') :
    List.Forall₂ Stmt.Twin (prune needed stmts) (prune needed stmts') := by
  refine List.rel_filter (fun s s' hs => ?_) h
  cases hs <;> exact Iff.rfl

theorem numbering_twin (first : Nat) (h : List.Forall₂ Stmt.Twin stmts stmts') :
    numbering first stmts' = numbering first stmts := by
  unfold numbering
  generalize (({}, first) : Renaming × Nat) = acc
  induction h generalizing acc with
  | nil => rfl
  | cons hs _ ih =>
    rw [List.foldl_cons, List.foldl_cons, ih]
    cases hs <;> rfl

/-- **Twin statements have twin normal forms.** -/
theorem normalize_twin (h : List.Forall₂ Stmt.Twin stmts stmts') (locals : List Local) :
    (normalize stmts locals).Twin (normalize stmts' locals) := by
  have hkept := prune_twin (neededLabels stmts) h
  unfold normalize
  rw [neededLabels_twin h]
  dsimp only
  rw [leadingLabel?_twin hkept, numbering_twin _ hkept]
  refine ⟨rfl, rfl, List.rel_append (Stmt.Twin.refl_all _) ?_⟩
  exact List.rel_map (fun s s' hs => hs.relabel _) hkept

end Body

/-! ## Binders -/

namespace Binder

/-- **Twin binders**: they have bound twin statements, and are the same otherwise. -/
inductive Twin (b : Binder) : Binder → Prop
  | mk (stmts : Array Stmt) (h : List.Forall₂ Stmt.Twin b.draft.stmts.toList stmts.toList) :
    Twin b { b with draft := { b.draft with stmts := stmts } }

variable {b b' : Binder}

theorem Twin.refl (b : Binder) : b.Twin b := .mk b.draft.stmts (Stmt.Twin.refl_all _)

theorem Twin.labelAt (h : b.Twin b') (address : UInt32) :
    (b'.labelAt address).1 = (b.labelAt address).1 ∧
      (b.labelAt address).2.Twin (b'.labelAt address).2 := by
  obtain ⟨stmts, hstmts⟩ := h
  unfold Binder.labelAt
  dsimp only
  split
  · exact ⟨rfl, .mk stmts hstmts⟩
  · exact ⟨rfl, .mk stmts hstmts⟩

theorem Twin.add (h : b.Twin b') {s s' : Stmt} (hs : s.Twin s') : (b.add s).Twin (b'.add s') := by
  obtain ⟨stmts, hstmts⟩ := h
  refine .mk (stmts.push s') ?_
  simp only [Binder.add, Draft.add, Array.toList_push]
  exact List.rel_append hstmts (.cons hs .nil)

theorem Twin.place (h : b.Twin b') (address : UInt32) :
    Matched Twin (b.place address) (b'.place address) := by
  obtain ⟨hlabel, hat⟩ := h.labelAt address
  unfold Binder.place
  dsimp only
  rw [hlabel]
  generalize (b.labelAt address).1 = l
  generalize (b.labelAt address).2 = c at hat ⊢
  generalize (b'.labelAt address).2 = c' at hat ⊢
  obtain ⟨stmts, hstmts⟩ := hat
  unfold Draft.mark
  dsimp only
  split
  · exact .error _
  · exact .error _
  · refine .ok (.mk (stmts.push (.label l)) ?_)
    simp only [Draft.add, Array.toList_push]
    exact List.rel_append hstmts (.cons (.label l) .nil)

/-- **Appending twin effects.** -/
theorem Twin.append (h : b.Twin b') {e e' : Effect} (he : e.Twin e') :
    (b.append e).Twin (b'.append e') := by
  cases he with
  | stmt hs => exact h.add hs
  | same =>
    cases e with
    | nop => exact h
    | stmt s => exact h.add (.refl s)
    | jump target =>
      obtain ⟨hlabel, hat⟩ := h.labelAt target
      unfold Binder.append
      dsimp only
      rw [hlabel]
      exact hat.add (.refl _)
    | branch cond target =>
      obtain ⟨hlabel, hat⟩ := h.labelAt target
      unfold Binder.append
      dsimp only
      rw [hlabel]
      exact hat.add (.refl _)

/-- **Binding a stream** with the switch somewhere else. -/
theorem Twin.bindAll (limit : UInt32) (h : b.Twin b') (instrs : List Instr) :
    Matched Twin (b.bindAll instrs) (b'.bindAllUpTo limit instrs) := by
  rw [← bindAllUpTo_max]
  induction instrs generalizing b b' with
  | nil => exact .ok h
  | cons i rest ih =>
    refine .bind (h.place i.address) fun c c' _ hc => ?_
    have hsame : c'.scope = c.scope ∧ c'.routine = c.routine := by
      cases hc
      exact ⟨rfl, rfl⟩
    rw [hsame.1, hsame.2, Scope.lowerUpTo_max]
    refine .bind ((c.scope.lowerUpTo_twin limit i).mapError _) fun e e' _ he => ?_
    exact ih (hc.append he)

/-- **Finishing twin bodies.** -/
theorem Twin.finish (h : b.Twin b') : Matched Body.Twin b.finish b'.finish := by
  obtain ⟨stmts, hstmts⟩ := h
  unfold Binder.finish Binder.stray? Draft.finish
  dsimp only [Draft.isMarked]
  split
  · exact .error _
  · split
    · exact .error _
    · exact .ok (Body.normalize_twin hstmts _)

end Binder

namespace Routine

/-- **Twin bodies are laid out as twin routines.** -/
theorem ofBody_twin {body body' : Body} (h : body.Twin body') (hnormal : body.Normal)
    (convention : Convention) (address : UInt32) :
    Matched Twin (Routine.ofBody convention address body)
      (Routine.ofBody convention address body') := by
  obtain ⟨r, hr, rfl, rfl, rfl, -⟩ := ofBody_normal hnormal convention address
  obtain ⟨r', hr', hc, ha, rfl, -⟩ := ofBody_normal (h.normal hnormal) r.convention r.address
  rw [hr, hr']
  refine .ok ⟨hc, ha, h, ?_⟩
  rw [hc, ha]
  exact hr'

/-- **With the switch somewhere else, a routine is read as its twin**, or not at all for the same
reason. -/
theorem decodeUpTo_twin (limit : UInt32) (m : Memory) (address ramStart : UInt32) :
    Matched Twin (decode m address ramStart) (decodeUpTo limit m address ramStart) := by
  unfold decode decodeUpTo
  refine .common fun ⟨convention, groups, c⟩ _ => ?_
  refine .bind ((Binder.Twin.refl _).bindAll limit _) fun b b' hb htwin => ?_
  obtain ⟨code, hbinds⟩ := bindAll_ok hb
  dsimp only
  cases (Listing.scan address c).fault with
  | some fault => exact .error fault
  | none =>
    refine .bind htwin.finish fun body body' hbody h => ?_
    exact ofBody_twin h (hbinds.finish_normal hbody) convention address

end Routine

end StoryVM
