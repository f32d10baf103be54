import StoryVM.Proofs.InstrSemantics
import StoryVM.Proofs.Refinement

/-! # Instructions and their statements

The statement that an instruction is bound to has exactly the effect of the instruction
(`bind_exec`), as a tree and as the operations it is laid out to.

* `Scope.fetch_load`, `Scope.assign_store`: the expression of an operand has its value, and the
  statement of an assignment stores its value once.
* `Scope.lower_exec`: what an instruction is lowered to does what the instruction does. -/

namespace StoryVM

open Eval

variable {σ : Type}

/-! ## Operations -/

theorem Eval.bind_apply_congr {α β : Type} {x y : Eval σ α} {m : Machine σ} (h : x m = y m)
    (f : α → Eval σ β) : (x >>= f) m = (y >>= f) m := by
  rw [bind_apply, bind_apply, h]

theorem ArithOp.arith_result (op : ArithOp) (l r : UInt32) :
    (Eval.arith op l r : Eval σ UInt32) = op.result l r := by
  cases op with
  | add | sub | mul => rfl
  | div | mod =>
    unfold Eval.arith ArithOp.apply? ArithOp.result signedDivision
    dsimp only
    split <;> rename_i h <;> split at h <;> simp_all

theorem CompareOp.holds_test (op : CompareOp) (l r : UInt32) :
    op.holds l.toInt32 r.toInt32 = op.test l r := by
  have hinj : l.toInt32 = r.toInt32 ↔ l = r :=
    ⟨fun h => by rw [← l.toUInt32_toInt32, h, r.toUInt32_toInt32], fun h => by rw [h]⟩
  cases op <;> simp [holds, test, hinj]

theorem CompareOp.ite_apply {α : Type} (op : CompareOp) (l r : UInt32) (x y : α) :
    (if op.apply l r = 0 then x else y) = if op.test l r then y else x := by
  rw [CompareOp.apply, op.holds_test]
  cases op.test l r <;> simp

theorem Operand.destination_cases {offset : Operand} {next : UInt32} {d : Destination}
    (h : offset.destination next = .ok d) :
    (offset.kind = .constant ∧ (offset.value = 0 ∨ offset.value = 1) ∧ d = .ret offset.value) ∨
    (offset.kind = .constant ∧ ¬ (offset.value = 0 ∨ offset.value = 1) ∧
      d = .address (next + offset.value - 2)) := by
  unfold Operand.destination at h
  split at h
  · next hk =>
    split at h
    · next hv => exact Or.inl ⟨hk, hv, (Except.ok.inj h).symm⟩
    · next hv => exact Or.inr ⟨hk, hv, (Except.ok.inj h).symm⟩
  · cases h

theorem Operand.destination_load {offset : Operand} {next : UInt32} {d : Destination}
    (h : offset.destination next = .ok d) (s : Scope) (w : Width) :
    (offset.load s w : Eval σ UInt32) = pure offset.value := by
  have hk : offset.kind = .constant := by
    rcases Operand.destination_cases h with ⟨hk, -⟩ | ⟨hk, -⟩ <;> exact hk
  rw [Operand.load, hk]

/-! ## Expressions of operands -/

variable [Host σ] {s : Scope} {invoke : UInt32 → List UInt32 → Eval σ UInt32}

theorem Scope.slotAt_of_localAt {frameAddress : UInt32} {var : Local}
    (h : s.localAt frameAddress = .ok var) : s.slotAt frameAddress = var.index := by
  unfold Scope.localAt at h
  rw [Std.TreeMap.get?_eq_getElem?] at h
  split at h
  · next v hv =>
    cases h
    rw [Scope.slotAt, hv]
    rfl
  · cases h

theorem Expr.eval_ofBits (v : UInt32) : (Expr.ofBits v).eval invoke = pure v := by
  simp [Expr.ofBits, Expr.eval]

theorem Expr.eval_plus (l r : Expr) : (l.plus r).eval invoke = do
    let x ← l.eval invoke
    let y ← r.eval invoke
    return x + y := by
  rw [Expr.plus, Expr.eval]
  rfl

theorem Scope.eval_ramAddress (offset : UInt32) :
    (s.ramAddress offset).eval invoke = pure (s.ramStart + offset) := by
  simp [Scope.ramAddress, Expr.eval_plus, Expr.eval_ofBits]

/-- **The expression of an operand** has the operand's value. -/
theorem Scope.fetch_load {o : Operand} {w : Width} {e : Expr} (h : s.fetch o w = .ok e) :
    e.eval invoke = o.load s w := by
  unfold Scope.fetch at h
  unfold Operand.load
  cases hk : o.kind with
  | constant =>
    simp only [hk] at h ⊢
    cases h
    exact Expr.eval_ofBits o.value
  | address =>
    simp only [hk] at h ⊢
    cases h
    simp [Expr.eval, Expr.eval_ofBits]
  | stack =>
    simp only [hk] at h ⊢
    cases h
    rw [Expr.eval]
  | localSlot =>
    simp only [hk] at h ⊢
    obtain ⟨var, hvar, rfl⟩ := map_ok_iff.mp h
    rw [Expr.eval, Scope.slotAt_of_localAt hvar]
  | ram =>
    simp only [hk] at h ⊢
    cases h
    simp [Expr.eval, Scope.eval_ramAddress]

/-- **The statement of an assignment** evaluates the value and stores it once. -/
theorem Scope.assign_store {d : Operand} {value : Expr} {w : Width} {e : Effect}
    (h : s.assign d value w = .ok e) : ∃ t, e = .stmt t ∧ t.exec invoke = do
      let v ← value.eval invoke
      d.store s w v
      return .next := by
  unfold Scope.assign at h
  unfold Operand.store
  cases hk : d.kind with
  | constant =>
    simp only [hk] at h ⊢
    split at h
    · cases h
      exact ⟨_, rfl, by simp [Stmt.exec]⟩
    · cases h
  | address =>
    simp only [hk] at h ⊢
    cases h
    exact ⟨_, rfl, by simp [Stmt.exec, Expr.eval_ofBits]⟩
  | stack =>
    simp only [hk] at h ⊢
    cases h
    exact ⟨_, rfl, by simp [Stmt.exec]⟩
  | localSlot =>
    simp only [hk] at h ⊢
    obtain ⟨var, hvar, he⟩ := bind_ok_iff.mp h
    cases he
    exact ⟨_, rfl, by simp [Stmt.exec, Scope.slotAt_of_localAt hvar]⟩
  | ram =>
    simp only [hk] at h ⊢
    cases h
    exact ⟨_, rfl, by simp [Stmt.exec, Scope.eval_ramAddress]⟩

theorem Scope.evalAll_load {args : List Operand} {es : List Expr}
    (h : args.mapM s.fetch = .ok es) :
    Expr.evalAll invoke es = args.mapM (·.load s .dword) := by
  induction args generalizing es with
  | nil =>
    rw [List.mapM_nil] at h
    cases h
    rw [Expr.evalAll, List.mapM_nil]
  | cons o rest ih =>
    rw [List.mapM_cons] at h
    obtain ⟨e, he, h⟩ := bind_ok_iff.mp h
    obtain ⟨more, hmore, h⟩ := bind_ok_iff.mp h
    cases h
    rw [Expr.evalAll, List.mapM_cons, Scope.fetch_load he, ih hmore]

theorem Expr.evalAll_pops (n : Nat) :
    Expr.evalAll invoke (List.replicate n .pop) = popEach n := by
  induction n with
  | zero =>
    rw [List.replicate_zero, Expr.evalAll]
    rfl
  | succ n ih =>
    rw [List.replicate_succ, Expr.evalAll, ih, Expr.eval]
    rfl

theorem elementAddress_element (w : Width) (base offset : Expr) :
    (elementAddress w base offset).eval invoke = do
      let x ← base.eval invoke
      let y ← offset.eval invoke
      return w.element x y := by
  cases w with
  | byte => exact Expr.eval_plus base offset
  | word | dword =>
    simp [elementAddress, Expr.eval_plus, Expr.times, Expr.eval, Expr.eval_ofBits, Eval.arith,
      ArithOp.apply?, Width.element, Width.bytes]

theorem Eval.dispatch_request (selector count : UInt32) :
    (dispatch [selector, count] : Eval σ UInt32) = request selector count := by
  funext m
  rw [request, bind_apply, popArguments, update, dispatch, attempt, attempt, Machine.dispatch]
  cases m.stack.popArguments count with
  | error f => rfl
  | ok p => rfl

/-- A value narrowed to a width. A local of that width holds nothing else. -/
theorem Scope.narrowed_truncate {locals : List Local} {m : Machine σ} (hm : m.HasLocals locals)
    (w : Width) {e : Expr} (he : e.Scoped locals) :
    (narrowed w e).eval invoke m = (e.eval invoke >>= fun v => pure (w.truncate v)) m := by
  have hconvert : (Expr.convert w false e).eval invoke =
      e.eval invoke >>= fun v => pure (w.truncate v) := by
    rw [Expr.eval]
    rfl
  by_cases hlocal : ∃ var, e = .readLocal var ∧ var.width = w
  · obtain ⟨var, rfl, rfl⟩ := hlocal
    obtain ⟨f, slot, hf, hslot, hwidth⟩ := hm.slot he
    have hread : (Expr.readLocal var).eval invoke m = some (.ok slot.value, m) := by
      rw [Expr.eval, Eval.readLocal, inspect, attempt, hf]
      simp [Frame.read, hslot, Bind.bind, Except.bind]
    have hfits : var.width.truncate slot.value = slot.value := hwidth ▸ slot.fits
    simp only [narrowed, decide_true, if_true, bind_apply, hread, pure_apply, hfits]
  · by_cases hw : w = .dword
    · have hid : (e.eval invoke >>= fun v => pure (w.truncate v)) = e.eval invoke := by
        rw [hw]
        exact bind_pure _
      have hcases : narrowed w e = e ∨ narrowed w e = .convert w false e := ite_eq_or_eq _ _ _
      rcases hcases with he' | he'
      · rw [he', hid]
      · rw [he', hconvert]
    · have hnot : narrowed w e = .convert w false e := by
        unfold narrowed
        cases e with
        | readLocal var => simp_all
        | _ => simp [hw]
      rw [hnot, hconvert]

/-! ## Statements of instructions -/

/-- The effect of what an instruction stands for. -/
def Effect.exec (lab : UInt32 → Label) (invoke : UInt32 → List UInt32 → Eval σ UInt32)
    (e : Effect) : Eval σ Control :=
  (e.stmts lab).head?.elim (pure .next) (Stmt.exec invoke)

theorem Destination.toEffect_leap {offset : Operand} {next : UInt32} {d : Destination}
    (h : offset.destination next = .ok d) (lab : UInt32 → Label) :
    d.toEffect.exec lab invoke = pure (leap lab next offset.value) := by
  obtain ⟨-, hv, rfl⟩ | ⟨-, hv, rfl⟩ := Operand.destination_cases h
  · simp [Destination.toEffect, Effect.exec, Effect.stmts, Stmt.exec, Expr.eval_ofBits, leap, hv]
  · simp [Destination.toEffect, Effect.exec, Effect.stmts, Stmt.exec, leap, hv]

theorem Destination.toBranch_leap {offset : Operand} {next : UInt32} {d : Destination}
    (h : offset.destination next = .ok d) (lab : UInt32 → Label) (cond : Expr) :
    (d.toBranch cond).exec lab invoke = (do
      let c ← cond.eval invoke
      return if c = 0 then .next else leap lab next offset.value) := by
  have hif : ∀ (c : UInt32) (x : Control), (if c = 0 then pure .next else pure x : Eval σ Control) =
      pure (if c = 0 then .next else x) := by
    intro c x
    split <;> rfl
  obtain ⟨-, hv, rfl⟩ | ⟨-, hv, rfl⟩ := Operand.destination_cases h
  · simp [Destination.toBranch, Effect.exec, Effect.stmts, Stmt.exec, Expr.eval_ofBits, leap, hv, hif]
  · simp [Destination.toBranch, Effect.exec, Effect.stmts, Stmt.exec, leap, hv, hif]

theorem Scope.assign_exec {d : Operand} {value : Expr} {w : Width} {e : Effect}
    (h : s.assign d value w = .ok e) (lab : UInt32 → Label) : e.exec lab invoke = (do
      let v ← value.eval invoke
      d.store s w v
      return .next) := by
  obtain ⟨t, rfl, ht⟩ : ∃ t, e = .stmt t ∧ t.exec invoke = _ := Scope.assign_store h
  exact ht

theorem Scope.stackCall_exec {i : Instr} {address count : Operand} (hl : i.loads = [address, count])
    {e : Expr} (h : s.stackCall address count = .ok e) : e.eval invoke = (do
      let a ← address.load s .dword
      let n ← count.load s .dword
      let args ← i.arguments n
      invoke a args) := by
  unfold Scope.stackCall at h
  split at h
  · next hinline =>
    obtain ⟨ea, hea, h⟩ := bind_ok_iff.mp h
    cases h
    obtain ⟨hk, hle⟩ := hinline
    have hload : (count.load s .dword : Eval σ UInt32) = pure count.value := by
      rw [Operand.load, hk]
    simp [Expr.eval, Scope.fetch_load hea, Expr.evalAll_pops, hload, Instr.arguments, hl, hk, hle]
  · next hcounted =>
    obtain ⟨ea, hea, h⟩ := bind_ok_iff.mp h
    obtain ⟨en, hen, h⟩ := bind_ok_iff.mp h
    cases h
    -- The number that is loaded is not one for which the arguments are popped one by one.
    have hargs : (count.load s .dword >>= fun n => i.arguments n : Eval σ (List UInt32)) =
        count.load s .dword >>= fun n => popArguments n := by
      by_cases hk : count.kind = .constant
      · have hload : (count.load s .dword : Eval σ UInt32) = pure count.value := by
          rw [Operand.load, hk]
        have hnot : ¬ count.value ≤ maxInlineArguments := fun hle => hcounted ⟨hk, hle⟩
        simp [hload, Instr.arguments, hnot]
      · simp [Instr.arguments, hl, hk]
    simp only [Expr.eval, Scope.fetch_load hea, Scope.fetch_load hen]
    refine bind_congr fun a => ?_
    rw [← bind_assoc, ← bind_assoc, hargs]

/-- A statement of one operand, for an instruction that stores nothing. -/
theorem Scope.unary_exec {i : Instr} {a : Action} {o : Operand} {e : Expr} {t : Stmt}
    {k : UInt32 → Eval σ Control} {lab : UInt32 → Label} (hi : i.opcode ∈ Opcode.table)
    (ha : i.opcode.action = some a) (hl : i.loads = [o]) (hcount : a.loadCount = 1)
    (hwidth : a.width = .dword) (he : s.fetch o = .ok e) (ht : t.exec invoke = e.eval invoke >>= k)
    (hk : ∀ x, (a.compute lab invoke i [x] >>= i.conclude s .dword) = k x) :
    (Effect.stmt t).exec lab invoke = i.exec s lab invoke := by
  have hexec : (Effect.stmt t).exec lab invoke = t.exec invoke := rfl
  rw [hexec, ht, Scope.fetch_load he, Instr.exec_of_action hi ha (by rw [hl, hcount]; rfl), hl,
    hwidth]
  simp [hk]

/-- **What an instruction is lowered to does what the instruction does**, on every machine whose
innermost frame has the declared locals. -/
theorem Scope.lower_exec {locals : List Local} (hs : s.Within locals) {i : Instr}
    (hi : i.opcode ∈ Opcode.table) {e : Effect} (h : s.lower i = .ok e) {m : Machine σ}
    (hm : m.HasLocals locals) (lab : UInt32 → Label) :
    e.exec lab invoke m = i.exec s lab invoke m := by
  have hzero : (0 : Int32).toUInt32 = 0 := rfl
  unfold Scope.lower at h
  split at h
  · next ha hl hd =>
    cases h
    rw [Instr.exec_of_action hi ha (by rw [hl]; rfl), hl]
    simp [Action.compute, Effect.exec]
  · next op l r d ha hl hd =>
    obtain ⟨el, hel, h⟩ := bind_ok_iff.mp h
    obtain ⟨er, her, h⟩ := bind_ok_iff.mp h
    rw [Scope.assign_exec h, Instr.exec_of_action hi ha (by rw [hl]; rfl), hl]
    simp [Expr.eval, Scope.fetch_load hel, Scope.fetch_load her, Action.compute, Action.width,
      Instr.conclude_store hd, ArithOp.arith_result]
  · next v d ha hl hd =>
    obtain ⟨ev, hev, h⟩ := bind_ok_iff.mp h
    rw [Scope.assign_exec h, Instr.exec_of_action hi ha (by rw [hl]; rfl), hl]
    simp [Expr.minus, Expr.eval, hzero, Scope.fetch_load hev, Action.compute, Action.width,
      Instr.conclude_store hd, ArithOp.arith_result, ArithOp.result]
  · next offset ha hl hd =>
    obtain ⟨dest, hdest, rfl⟩ := map_ok_iff.mp h
    rw [Destination.toEffect_leap hdest, Instr.exec_of_action hi ha (by rw [hl]; rfl), hl]
    simp [Operand.destination_load hdest, Action.compute]
  · next op v offset ha hl hd =>
    obtain ⟨ev, hev, h⟩ := bind_ok_iff.mp h
    obtain ⟨dest, hdest, h⟩ := bind_ok_iff.mp h
    cases h
    rw [Destination.toBranch_leap hdest, Instr.exec_of_action hi ha (by rw [hl]; rfl), hl]
    simp [Expr.eval, hzero, Scope.fetch_load hev, Operand.destination_load hdest, Action.compute,
      Action.width, Instr.branchIf, CompareOp.ite_apply]
  · next op l r offset ha hl hd =>
    obtain ⟨el, hel, h⟩ := bind_ok_iff.mp h
    obtain ⟨er, her, h⟩ := bind_ok_iff.mp h
    obtain ⟨dest, hdest, h⟩ := bind_ok_iff.mp h
    cases h
    rw [Destination.toBranch_leap hdest, Instr.exec_of_action hi ha (by rw [hl]; rfl), hl]
    simp [Expr.eval, Scope.fetch_load hel, Scope.fetch_load her, Operand.destination_load hdest,
      Action.compute, Action.width, Instr.branchIf, CompareOp.ite_apply]
  · next address count d ha hl hd =>
    obtain ⟨ec, hec, h⟩ := bind_ok_iff.mp h
    rw [Scope.assign_exec h, Instr.exec_of_action hi ha (by rw [hl]; rfl), Scope.stackCall_exec hl hec,
      hl]
    simp [Action.compute, Action.width, Instr.conclude_store hd]
  · next n address args d ha hl hd =>
    split at h
    · next hn =>
      obtain ⟨ea, hea, h⟩ := bind_ok_iff.mp h
      obtain ⟨es, hes, h⟩ := bind_ok_iff.mp h
      rw [Scope.assign_exec h, Instr.exec_of_action hi ha (by rw [hl, ← hn]; rfl), hl]
      simp [Expr.eval, Scope.fetch_load hea, Scope.evalAll_load hes, Action.compute, Action.width,
        Instr.conclude_store hd]
    · cases h
  · next v ha hl hd =>
    obtain ⟨ev, hev, h⟩ := bind_ok_iff.mp h
    cases h
    refine congrFun (Scope.unary_exec hi ha hl rfl rfl hev (by rw [Stmt.exec]) fun x => ?_) m
    simp [Action.compute]
  · next w v d ha hl hd =>
    obtain ⟨ev, hev, h⟩ := bind_ok_iff.mp h
    have hnarrow : (narrowed w ev).eval invoke m = _ :=
      Scope.narrowed_truncate hm w (s.fetch_scoped hs w v ev hev)
    rw [Scope.assign_exec h, Instr.exec_of_action hi ha (by rw [hl]; rfl), hl,
      bind_apply_congr hnarrow]
    simp [Scope.fetch_load hev, Action.compute, Action.width, Instr.conclude_store hd]
  · next w v d ha hl hd =>
    obtain ⟨ev, hev, h⟩ := bind_ok_iff.mp h
    rw [Scope.assign_exec h, Instr.exec_of_action hi ha (by rw [hl]; rfl), hl]
    simp [Expr.eval, Scope.fetch_load hev, Action.compute, Action.width, Instr.conclude_store hd,
      Width.convert]
  · next w base offset d ha hl hd =>
    obtain ⟨eb, heb, h⟩ := bind_ok_iff.mp h
    obtain ⟨eo, heo, h⟩ := bind_ok_iff.mp h
    rw [Scope.assign_exec h, Instr.exec_of_action hi ha (by rw [hl]; rfl), hl]
    simp [Expr.eval, elementAddress_element, Scope.fetch_load heb, Scope.fetch_load heo,
      Action.compute, Action.width, Instr.conclude_store hd]
  · next w base offset v ha hl hd =>
    obtain ⟨eb, heb, h⟩ := bind_ok_iff.mp h
    obtain ⟨eo, heo, h⟩ := bind_ok_iff.mp h
    obtain ⟨ev, hev, h⟩ := bind_ok_iff.mp h
    cases h
    rw [Instr.exec_of_action hi ha (by rw [hl]; rfl), hl]
    simp [Effect.exec, Effect.stmts, Stmt.exec, elementAddress_element, Scope.fetch_load heb,
      Scope.fetch_load heo, Scope.fetch_load hev, Action.compute, Action.width]
  · next count ha hl hd =>
    obtain ⟨ec, hec, h⟩ := bind_ok_iff.mp h
    cases h
    refine congrFun (Scope.unary_exec hi ha hl rfl rfl hec (by rw [Stmt.exec]) fun x => ?_) m
    simp [Action.compute]
  · next v ha hl hd =>
    obtain ⟨ev, hev, h⟩ := bind_ok_iff.mp h
    cases h
    refine congrFun (Scope.unary_exec hi ha hl rfl rfl hev (by rw [Stmt.exec]) fun x => ?_) m
    simp [Action.compute]
  · next v ha hl hd =>
    obtain ⟨ev, hev, h⟩ := bind_ok_iff.mp h
    cases h
    refine congrFun (Scope.unary_exec hi ha hl rfl rfl hev (by rw [Stmt.exec]) fun x => ?_) m
    simp [Action.compute]
  · next v ha hl hd =>
    obtain ⟨ev, hev, h⟩ := bind_ok_iff.mp h
    cases h
    refine congrFun (Scope.unary_exec hi ha hl rfl rfl hev (by rw [Stmt.exec]) fun x => ?_) m
    simp [Action.compute]
  · next d ha hl hd =>
    rw [Scope.assign_exec h, Instr.exec_of_action hi ha (by rw [hl]; rfl), hl]
    simp [Expr.eval, Action.compute, Action.width, Instr.conclude_store hd]
  · next ha hl hd =>
    cases h
    rw [Instr.exec_of_action hi ha (by rw [hl]; rfl), hl]
    simp only [List.mapM_nil, pure_bind, Action.compute]
    rfl
  · next d ha hl hd =>
    cases h
    rw [Instr.exec_of_action hi ha (by rw [hl]; rfl), hl]
    simp [Effect.exec, Effect.stmts, Stmt.exec, Action.compute]
  · next selector count d ha hl hd =>
    obtain ⟨es, hes, h⟩ := bind_ok_iff.mp h
    obtain ⟨ec, hec, h⟩ := bind_ok_iff.mp h
    rw [Scope.assign_exec h, Instr.exec_of_action hi ha (by rw [hl]; rfl), hl]
    simp [Expr.eval, Expr.evalAll, Scope.fetch_load hes, Scope.fetch_load hec, dispatch_request,
      Action.compute, Action.width, Instr.conclude_store hd]
  · cases h

/-! ## Binding -/

/-- **Binding an instruction** of a routine appends the label of its address and the statement that
it is lowered to, if there is one. -/
theorem Binder.Bound.bind_appends {b b' : Binder} {code : Code} (h : b.Bound code) {i : Instr}
    (hb : b.bind i = (.ok (), b')) :
    ∃ e, b.scope.lower i = .ok e ∧
      b'.draft.stmts.toList =
        b.draft.stmts.toList ++ .label (b'.labelOf i.address) :: e.stmts b'.labelOf := by
  by_cases hi : i.address ∈ code.addresses
  · obtain ⟨l, hl⟩ := h.bind_again hi
    rw [hl] at hb
    cases hb
  · obtain ⟨hok, herr⟩ := h.bind hi
    cases he : b.scope.lower i with
    | error cause =>
      obtain ⟨b₁, hb₁⟩ := herr cause he
      rw [hb₁] at hb
      cases hb
    | ok e =>
      obtain ⟨b₁, hb₁, hbound, hsame⟩ := hok e he
      rw [hb₁] at hb
      cases hb
      refine ⟨e, rfl, ?_⟩
      have hold : code.labelled b'.labelOf = code.labelled b.labelOf := h.labelled_eq hsame.labels
      rw [hbound.stmts, h.stmts, Code.labelled_append, hold, Code.labelled_singleton]

theorem Effect.exists_stmts_eq_toList (lab : UInt32 → Label) (e : Effect) :
    ∃ t : Option Stmt, e.stmts lab = t.toList := by
  cases e with
  | nop => exact ⟨none, rfl⟩
  | stmt s => exact ⟨some s, rfl⟩
  | jump target => exact ⟨some (.jump (lab target)), rfl⟩
  | branch cond target => exact ⟨some (.branch cond (.jump (lab target))), rfl⟩

/-- **Binding preserves the meaning of instructions.** When the binder of a routine binds an
instruction, it appends the label of the instruction's address and at most one statement. On every
machine whose innermost frame has the routine's locals, executing the statement does exactly what
the instruction does, for any meaning of calls; and running the operations that the statement is laid
out to, in any program, follows it. -/
theorem bind_exec {address ramStart : UInt32} {groups : List LocalGroup} {before : List Instr}
    {b b' : Binder} (hb : (Routine.binder address ramStart groups).bindAll before = .ok b)
    {i : Instr} (hi : i.opcode ∈ Opcode.table) (h : b.bind i = (.ok (), b')) :
    ∃ appended : Option Stmt,
      b'.draft.stmts.toList =
        b.draft.stmts.toList ++ .label (b'.labelOf i.address) :: appended.toList ∧
      (∀ (invoke : UInt32 → List UInt32 → Eval σ UInt32) (m : Machine σ),
        m.HasLocals (LocalGroup.declared groups) →
        appended.elim (pure .next) (Stmt.exec invoke) m = i.exec b.scope b'.labelOf invoke m) ∧
      ∀ t, appended = some t → ∀ (fuel : Nat) (a : Activation) (suspended : List Activation)
        (m : Machine σ), m.Sound → m.HasLocals (LocalGroup.declared groups) →
        a.program.HasAt a.pc (t.code a.pc) →
        Follows 1 fuel (.running ⟨m, a, suspended⟩)
          (Run.proceed ⟨m, a, suspended⟩ (t.code a.pc).length)
          (i.exec b.scope b'.labelOf (StoryVM.invoke fuel) m) := by
  obtain ⟨hfresh, -, hlocals⟩ := Routine.binder_spec address ramStart groups
  obtain ⟨hnodup, code, hcode⟩ := hfresh.bound.of_bindAll hb
  obtain ⟨b₁, hb₁, hbound, hsame⟩ := (hfresh.bound.bindAll hnodup).1 code hcode
  obtain rfl : b = b₁ := Except.ok.inj (hb.symm.trans hb₁)
  have hs : b.scope.Within (LocalGroup.declared groups) := by
    rw [hsame.scope, ← hlocals]
    exact hfresh.within
  obtain ⟨e, he, hstmts⟩ := hbound.bind_appends h
  obtain ⟨appended, happended⟩ := e.exists_stmts_eq_toList b'.labelOf
  have hexec : ∀ (invoke : UInt32 → List UInt32 → Eval σ UInt32) (m : Machine σ),
      m.HasLocals (LocalGroup.declared groups) →
      appended.elim (pure .next) (Stmt.exec invoke) m = i.exec b.scope b'.labelOf invoke m := by
    intro invoke m hm
    rw [← Scope.lower_exec hs hi he hm b'.labelOf, Effect.exec, happended, Option.head?_toList]
  refine ⟨appended, by rw [hstmts, happended], hexec, ?_⟩
  rintro t rfl fuel a suspended m hm hl hcode
  have hmem : t ∈ e.stmts b'.labelOf := by
    rw [happended]
    exact List.mem_singleton_self t
  obtain ⟨-, hguard, -⟩ := (b.scope.lower_proper hs i e he).of_mem_stmts hmem
  have hfollows : Follows 1 (fuel - 1 + 1) (.running ⟨m, a, suspended⟩) _
      (t.exec (StoryVM.invoke fuel) m) := Stmt.exec_follows (invoke_simulates fuel) hguard hm hcode
  have hmeaning : t.exec (StoryVM.invoke fuel) m = _ := hexec (StoryVM.invoke fuel) m hl
  rw [hmeaning] at hfollows
  exact hfollows.weaken (Nat.le_refl 1) (by omega)

/-- The instruction that pushes a local of 16 bits, at frame address 0, as a copy of 16 bits. -/
def pushLocal : Instr :=
  ⟨⟨0x41, "copys", [.load, .store], some (.copy .word)⟩, [⟨.localSlot, 0⟩], [⟨.stack, 0⟩], 5, 8⟩

/-- A machine that runs a routine with one local of 16 bits, which is 7. -/
def holdingSeven : Machine Silent :=
  { memory := { bytes := #[] }, stack := Stack.empty 16, ramStart := 0, host := {},
    frames := #[⟨#[.holding .word 7], 0⟩] }

theorem bind_exec_pushLocal :
    ∃ b' : Binder, (Routine.binder 0 0 [⟨.word, 1⟩]).bind pushLocal = (.ok (), b') ∧
      pushLocal.opcode ∈ Opcode.table ∧
      holdingSeven.HasLocals (LocalGroup.declared [⟨.word, 1⟩]) ∧
      ∃ t m', b'.draft.stmts.toList = [.label 0, t] ∧
        t.exec (fun _ _ => pure 0) holdingSeven = some (.ok .next, m') ∧
        m'.stack.content = [0, 0, 0, 7] := by
  have htable : pushLocal.opcode ∈ Opcode.table := by decide +kernel
  have hlocals : holdingSeven.HasLocals (LocalGroup.declared [⟨.word, 1⟩]) := ⟨_, rfl, rfl⟩
  have hok : ((Routine.binder 0 0 [⟨.word, 1⟩]).bind pushLocal).1.isOk = true := by decide +kernel
  have hstmts : ((Routine.binder 0 0 [⟨.word, 1⟩]).bind pushLocal).2.draft.stmts.toList =
      [.label 0, .push (.readLocal ⟨0, .word⟩)] := by decide +kernel
  have hrun : (pushLocal.exec (Routine.binder 0 0 [⟨.word, 1⟩]).scope
      ((Routine.binder 0 0 [⟨.word, 1⟩]).bind pushLocal).2.labelOf (fun _ _ => pure 0)
      holdingSeven).map (fun p => (p.1.toOption, p.2.stack.content)) =
        some (some .next, [0, 0, 0, 7]) := by decide +kernel
  rcases hbind : (Routine.binder 0 0 [⟨.word, 1⟩]).bind pushLocal with ⟨f | ⟨⟩, b'⟩
  · rw [hbind] at hok
    cases hok
  · rw [hbind] at hstmts hrun
    have hfirst : (Routine.binder 0 0 [⟨.word, 1⟩]).bindAll [] = .ok _ := rfl
    obtain ⟨appended, happended, hexec, -⟩ := bind_exec (σ := Silent) hfirst htable hbind
    rw [hstmts] at happended
    have hlist : [Stmt.push (.readLocal ⟨0, .word⟩)] = appended.toList :=
      (List.cons.inj happended).2
    obtain rfl : appended = some (.push (.readLocal ⟨0, .word⟩)) :=
      Option.toList_eq_singleton_iff.mp hlist.symm
    have hmeaning := hexec (fun _ _ => pure 0) holdingSeven hlocals
    obtain ⟨⟨result, m'⟩, hm', heq⟩ := Option.map_eq_some_iff.mp hrun
    obtain ⟨hresult, hcontent⟩ := Prod.mk.inj heq
    rcases result with f | c
    · cases hresult
    · cases hresult
      exact ⟨b', rfl, htable, hlocals, _, m', hstmts, hmeaning.trans hm', hcontent⟩

end StoryVM
