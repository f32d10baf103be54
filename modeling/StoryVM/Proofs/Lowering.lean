import Mathlib.Tactic.Common
import StoryVM.Instr.Lowering
import StoryVM.Proofs.NormalForm

/-! # What instructions are lowered to

An instruction does nothing, or leads to the destination of its last operand, or stands for a
statement that stays where it is (`Scope.lower_lowered`). The statement only uses locals that the
scope knows, hands two arguments to the host, names no label and guards no statement but a return
(`Scope.lower_proper`). So a routine that was read from memory is *scoped*: its locals exist in the
frames made for it.

* `Yields x P`: whatever a computation gives has the property `P`. It is proved along the
  computation (`Yields.bind`, `Yields.pure`).
* `Expr.Scoped` and `Stmt.Scoped`: locals are declared, and host requests have two arguments.
* `Scope.Lowered`: all that lowering can give. What holds of it holds of every instruction. -/

namespace StoryVM

/-! ## Properties of results -/

/-- Whatever the computation gives has the property. -/
def Yields {ε α : Type} (x : Except ε α) (P : α → Prop) : Prop := ∀ a, x = .ok a → P a

namespace Yields

variable {ε α β : Type}

theorem ok {P : α → Prop} {a : α} (h : P a) : Yields (.ok a : Except ε α) P := by
  rintro _ ⟨⟩
  exact h

theorem pure {P : α → Prop} {a : α} (h : P a) : Yields (Pure.pure a : Except ε α) P :=
  ok h

theorem error {P : α → Prop} (e : ε) : Yields (.error e) P := by
  rintro _ ⟨⟩

theorem any (x : Except ε α) : Yields x fun _ => True := fun _ _ => trivial

theorem self (x : Except ε α) : Yields x (x = .ok ·) := fun _ h => h

theorem bind {x : Except ε α} {f : α → Except ε β} {P : α → Prop} {Q : β → Prop} (hx : Yields x P)
    (hf : ∀ a, P a → Yields (f a) Q) : Yields (x >>= f) Q := by
  cases x with
  | error e => exact error e
  | ok a => exact hf a (hx a rfl)

theorem map {x : Except ε α} {f : α → β} {P : α → Prop} {Q : β → Prop} (hx : Yields x P)
    (hf : ∀ a, P a → Q (f a)) : Yields (f <$> x) Q := by
  cases x with
  | error e => exact error e
  | ok a => exact ok (hf a (hx a rfl))

theorem mapM {f : α → Except ε β} {Q : β → Prop} (h : ∀ a, Yields (f a) Q) (as : List α) :
    Yields (as.mapM f) fun bs => ∀ b ∈ bs, Q b := by
  induction as with
  | nil =>
    rw [List.mapM_nil]
    exact pure (by simp)
  | cons a rest ih =>
    rw [List.mapM_cons]
    refine bind (h a) fun b hb => bind ih fun bs hbs => pure ?_
    rintro c hc
    rcases List.mem_cons.mp hc with rfl | hc
    · exact hb
    · exact hbs c hc

end Yields

/-! ## Scoped statements -/

mutual

/-- **A scoped expression**: the locals it reads are declared, and a host request has two
arguments. -/
def Expr.Scoped (locals : List Local) : Expr → Prop
  | .const _ | .pop | .memorySize => True
  | .readLocal var => locals[var.index]? = some var
  | .load _ address => address.Scoped locals
  | .arith _ l r | .compare _ l r => l.Scoped locals ∧ r.Scoped locals
  | .convert _ _ value => value.Scoped locals
  | .call address args => address.Scoped locals ∧ Expr.ScopedAll locals args
  | .callCounted address count => address.Scoped locals ∧ count.Scoped locals
  | .glk args => args.length = 2 ∧ Expr.ScopedAll locals args

/-- All expressions of a list are scoped. -/
def Expr.ScopedAll (locals : List Local) : List Expr → Prop
  | [] => True
  | e :: rest => e.Scoped locals ∧ Expr.ScopedAll locals rest

end

theorem Expr.scopedAll_iff {locals : List Local} {es : List Expr} :
    Expr.ScopedAll locals es ↔ ∀ e ∈ es, e.Scoped locals := by
  induction es with
  | nil => simp [ScopedAll]
  | cons e rest ih => simp [ScopedAll, ih]

/-- **A scoped statement**: its expressions are scoped, and the local it writes is declared. -/
def Stmt.Scoped (locals : List Local) : Stmt → Prop
  | .label _ | .jump _ | .quit | .restoreUndo => True
  | .eval value | .push value | .copyStack value | .ret value | .putChar value | .putNumber value
  | .putString value => value.Scoped locals
  | .writeLocal var value => locals[var.index]? = some var ∧ value.Scoped locals
  | .store _ address value => address.Scoped locals ∧ value.Scoped locals
  | .branch cond guarded => cond.Scoped locals ∧ guarded.Scoped locals

theorem Stmt.scoped_relabel {f : Label → Label} {locals : List Local} {s : Stmt}
    (h : s.Scoped locals) : (s.relabel f).Scoped locals := by
  induction s <;> simp_all [relabel, Transform.stmt, Transform.expr_of_node_id, Scoped]

/-! ## Lowering -/

/-- Whether an action goes on elsewhere in the routine. -/
def Action.leaps : Action → Bool
  | jump | branchZero _ | branch _ => true
  | _ => false

/-- **A proper effect**: its statement is scoped and names no label, and a branch guards a
return. -/
def Effect.Proper (locals : List Local) : Effect → Prop
  | .nop | .jump _ => True
  | .stmt s => s.names = [] ∧ s.GuardOk ∧ s.Scoped locals
  | .branch cond _ => cond.Scoped locals

/-- A statement that is no branch guards nothing. -/
theorem Effect.Proper.stmt {locals : List Local} {s : Stmt} (hn : s.names = [])
    (hb : ∀ cond guarded, s ≠ .branch cond guarded) (hs : s.Scoped locals) :
    (Effect.stmt s).Proper locals :=
  ⟨hn, fun cond guarded h => absurd h (hb cond guarded), hs⟩

theorem Destination.toEffect_proper (locals : List Local) (d : Destination) :
    d.toEffect.Proper locals := by
  cases d with
  | ret v => exact .stmt rfl (by rintro _ _ ⟨⟩) trivial
  | address a => trivial

theorem Destination.toBranch_proper {locals : List Local} {cond : Expr} (h : cond.Scoped locals)
    (d : Destination) : (d.toBranch cond).Proper locals := by
  cases d with
  | ret v =>
    refine ⟨rfl, ?_, h, trivial⟩
    rintro _ _ ⟨⟩
    exact Or.inr ⟨_, rfl⟩
  | address a => exact h

namespace Scope

/-- The scope's locals are among the declared ones. -/
def Within (s : Scope) (locals : List Local) : Prop :=
  ∀ (a : UInt32) var, s.locals[a]? = some var → locals[var.index]? = some var

variable {s : Scope} {locals : List Local}

theorem localAt_declared (h : s.Within locals) (a : UInt32) :
    Yields (s.localAt a) fun var => locals[var.index]? = some var := by
  unfold localAt
  split
  · next var hvar => exact .ok (h a var hvar)
  · exact .error _

theorem fetch_scoped (h : s.Within locals) (w : Width) (o : Operand) :
    Yields (s.fetch o w) (Expr.Scoped locals) := by
  unfold fetch
  split
  · exact .ok trivial
  · exact .ok trivial
  · exact .ok trivial
  · exact .map (localAt_declared h o.value) fun var hvar => hvar
  · exact .ok ⟨trivial, trivial⟩

theorem assign_proper (h : s.Within locals) (o : Operand) (w : Width) {value : Expr}
    (hv : value.Scoped locals) : Yields (s.assign o value w) (Effect.Proper locals) := by
  unfold assign
  split
  · split
    · exact .ok (.stmt rfl (by rintro _ _ ⟨⟩) hv)
    · exact .error _
  · exact .ok (.stmt rfl (by rintro _ _ ⟨⟩) ⟨trivial, hv⟩)
  · exact .ok (.stmt rfl (by rintro _ _ ⟨⟩) hv)
  · refine .bind (localAt_declared h o.value) fun var hvar => .pure ?_
    exact .stmt rfl (by rintro _ _ ⟨⟩) ⟨hvar, hv⟩
  · exact .ok (.stmt rfl (by rintro _ _ ⟨⟩) ⟨⟨trivial, trivial⟩, hv⟩)

theorem stackCall_scoped (h : s.Within locals) (address count : Operand) :
    Yields (s.stackCall address count) (Expr.Scoped locals) := by
  unfold stackCall
  split
  · refine .bind (fetch_scoped h .dword address) fun a ha => .pure ⟨ha, ?_⟩
    rw [Expr.scopedAll_iff]
    intro e he
    rw [List.eq_of_mem_replicate he]
    trivial
  · refine .bind (fetch_scoped h .dword address) fun a ha => ?_
    exact .bind (fetch_scoped h .dword count) fun c hc => .pure ⟨ha, hc⟩

theorem narrowed_scoped (w : Width) {value : Expr} (h : value.Scoped locals) :
    (narrowed w value).Scoped locals := by
  unfold narrowed
  dsimp only
  exact iteInduction (motive := Expr.Scoped locals) (fun _ => h) fun _ => h

theorem elementAddress_scoped (w : Width) {base offset : Expr} (hb : base.Scoped locals)
    (ho : offset.Scoped locals) : (elementAddress w base offset).Scoped locals := by
  cases w with
  | byte => exact ⟨hb, ho⟩
  | word | dword => exact ⟨hb, ho, trivial⟩

/-- A value is stored by a statement that is no label. -/
theorem assign_stmt (s : Scope) (o : Operand) (value : Expr) (w : Width) :
    Yields (s.assign o value w) fun e => ∃ t, e = .stmt t ∧ t.label? = none := by
  unfold assign
  split
  · split
    · exact .ok ⟨_, rfl, rfl⟩
    · exact .error _
  · exact .ok ⟨_, rfl, rfl⟩
  · exact .ok ⟨_, rfl, rfl⟩
  · exact .bind (.any _) fun var _ => .pure ⟨_, rfl, rfl⟩
  · exact .ok ⟨_, rfl, rfl⟩

/-- The expression only reads locals of the scope: it is scoped wherever these are declared. -/
def Knows (s : Scope) (e : Expr) : Prop := ∀ ⦃locals⦄, s.Within locals → e.Scoped locals

/-- **What an instruction comes to**, by its action, its loads and the address behind it. -/
inductive Lowered (s : Scope) (action : Option Action) (loads : List Operand) (next : UInt32) :
    Effect → Prop
  | nothing (ha : action = some .nop) : Lowered s action loads next .nop
  | stays {t : Stmt} (hnop : action ≠ some .nop) (ha : action.any Action.leaps = false)
    (hlabel : t.label? = none) (ht : ∀ ⦃locals⦄, s.Within locals → (Effect.stmt t).Proper locals) :
    Lowered s action loads next (.stmt t)
  | jumps {offset : Operand} {d : Destination} (ha : action = some .jump)
    (hl : loads.getLast? = some offset) (hd : offset.destination next = .ok d) :
    Lowered s action loads next d.toEffect
  | branches {cond : Expr} {offset : Operand} {d : Destination}
    (ha : action.any Action.leaps = true) (hcond : s.Knows cond)
    (hl : loads.getLast? = some offset) (hd : offset.destination next = .ok d) :
    Lowered s action loads next (d.toBranch cond)

theorem assign_lowered {action : Option Action} {loads : List Operand} {next : UInt32} {o : Operand}
    {value : Expr} {w : Width} (hnop : action ≠ some .nop) (ha : action.any Action.leaps = false)
    (hv : s.Knows value) : Yields (s.assign o value w) (s.Lowered action loads next) := by
  intro e he
  obtain ⟨t, rfl, hlabel⟩ := s.assign_stmt o value w e he
  exact .stays hnop ha hlabel fun _ h => assign_proper h o w (hv h) _ he

/-- **Every instruction comes to one of these.** -/
theorem lower_lowered (s : Scope) (i : Instr) :
    Yields (s.lower i) (s.Lowered i.opcode.action i.loads i.next) := by
  have hf (w : Width) (o : Operand) : Yields (s.fetch o w) s.Knows :=
    fun e he _ h => fetch_scoped h w o e he
  have hcall (address count : Operand) : Yields (s.stackCall address count) s.Knows :=
    fun e he _ h => stackCall_scoped h address count e he
  unfold lower
  dsimp only
  generalize i.opcode.action = action, i.loads = loads, i.stores = stores
  split
  · exact .ok (.nothing rfl)
  · refine .bind (hf .dword _) fun l hl => .bind (hf .dword _) fun r hr => ?_
    exact assign_lowered nofun rfl fun _ h => ⟨hl h, hr h⟩
  · exact .bind (hf .dword _) fun v hv => assign_lowered nofun rfl fun _ h => ⟨trivial, hv h⟩
  · exact .map (.self _) fun d hd => .jumps rfl rfl hd
  · refine .bind (hf .dword _) fun v hv => .bind (.self _) fun d hd => .pure ?_
    exact .branches rfl (fun _ h => ⟨hv h, trivial⟩) rfl hd
  · refine .bind (hf .dword _) fun l hl => .bind (hf .dword _) fun r hr => ?_
    exact .bind (.self _) fun d hd => .pure (.branches rfl (fun _ h => ⟨hl h, hr h⟩) rfl hd)
  · exact .bind (hcall _ _) fun e he => assign_lowered nofun rfl he
  · split
    · refine .bind (hf .dword _) fun a ha => .bind (.mapM (hf .dword) _) fun args hargs => ?_
      refine assign_lowered nofun rfl fun _ h => ⟨ha h, ?_⟩
      exact Expr.scopedAll_iff.mpr fun e he => hargs e he h
    · exact .error _
  · exact .bind (hf .dword _) fun v hv =>
      .pure (.stays nofun rfl rfl fun _ h => .stmt rfl nofun (hv h))
  · refine .bind (hf _ _) fun v hv => ?_
    exact assign_lowered nofun rfl fun _ h => narrowed_scoped _ (hv h)
  · exact .bind (hf .dword _) fun v hv => assign_lowered nofun rfl hv
  · refine .bind (hf .dword _) fun b hb => .bind (hf .dword _) fun o ho => ?_
    exact assign_lowered nofun rfl fun _ h => elementAddress_scoped _ (hb h) (ho h)
  · refine .bind (hf .dword _) fun b hb => .bind (hf .dword _) fun o ho => ?_
    refine .bind (hf .dword _) fun v hv => .pure (.stays nofun rfl rfl fun _ h => ?_)
    exact .stmt rfl nofun ⟨elementAddress_scoped _ (hb h) (ho h), hv h⟩
  · exact .bind (hf .dword _) fun v hv =>
      .pure (.stays nofun rfl rfl fun _ h => .stmt rfl nofun (hv h))
  · exact .bind (hf .dword _) fun v hv =>
      .pure (.stays nofun rfl rfl fun _ h => .stmt rfl nofun (hv h))
  · exact .bind (hf .dword _) fun v hv =>
      .pure (.stays nofun rfl rfl fun _ h => .stmt rfl nofun (hv h))
  · exact .bind (hf .dword _) fun v hv =>
      .pure (.stays nofun rfl rfl fun _ h => .stmt rfl nofun (hv h))
  · exact assign_lowered nofun rfl fun _ _ => trivial
  · exact .ok (.stays nofun rfl rfl fun _ _ => .stmt rfl nofun trivial)
  · exact .ok (.stays nofun rfl rfl fun _ _ => .stmt rfl nofun trivial)
  · refine .bind (hf .dword _) fun a ha => .bind (hf .dword _) fun c hc => ?_
    exact assign_lowered nofun rfl fun _ h => ⟨rfl, ha h, hc h, trivial⟩
  · exact .error _

/-- **What an instruction stands for is proper.** -/
theorem lower_proper (h : s.Within locals) (i : Instr) :
    Yields (s.lower i) (Effect.Proper locals) := by
  intro e he
  cases s.lower_lowered i e he with
  | nothing => trivial
  | stays _ _ _ ht => exact ht h
  | jumps => exact Destination.toEffect_proper locals _
  | branches _ hcond => exact Destination.toBranch_proper (hcond h) _

end Scope

end StoryVM
