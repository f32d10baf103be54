import StoryVM.Proofs.Binding
import StoryVM.Proofs.BindingInPlace
import StoryVM.Proofs.Lowering

/-! # What a binding changes

Binding an instruction whose address is new places the label of that address. If the instruction
then turns out to have no meaning that is all; otherwise its statement follows, and the label of the
address that it leads to (`Binder.Reached.bind_frame`).

* `Binder.InPlace.bindInstr`: the binding step by step, which comes to the same.
* `Effect.IsStatement`: what an instruction other than `nop` stands for is a statement that is no
  label (`Scope.lower_isStatement`).
* `Binder.Reached`: the binders that there are, which begin with any draft and any locals. Their
  labels are `Numbered`, so that a label that is looked up can be placed.
* `Binder.Opens`, `Binder.Extends`: the two changes, told by what every label, mark and statement
  is afterwards. -/

namespace StoryVM

/-! ## Statements of instructions -/

/-- The opcode that does nothing is the one with the number 0. -/
theorem Opcode.action_eq_nop_iff {o : Opcode} (h : o ∈ table) :
    o.action = some .nop ↔ o.number = 0 := by
  have hall : ∀ o ∈ table, o.action = some .nop ↔ o.number = 0 := by decide +kernel
  exact hall o h

/-- **The effect is a statement** other than a label. -/
def Effect.IsStatement : Effect → Prop
  | .nop => False
  | .stmt s => s.label? = none
  | .jump _ | .branch _ _ => True

theorem Effect.IsStatement.exists_stmt {e : Effect} (h : e.IsStatement) (lab : UInt32 → Label) :
    ∃ s, e.stmts lab = [s] ∧ s.label? = none := by
  cases e with
  | nop => exact h.elim
  | stmt s => exact ⟨s, rfl, h⟩
  | jump t => exact ⟨_, rfl, rfl⟩
  | branch cond t => exact ⟨_, rfl, rfl⟩

theorem Destination.toEffect_isStatement (d : Destination) : d.toEffect.IsStatement := by
  cases d with
  | ret v => rfl
  | address a => trivial

theorem Destination.toBranch_isStatement (cond : Expr) (d : Destination) :
    (d.toBranch cond).IsStatement := by
  cases d with
  | ret v => rfl
  | address a => trivial

namespace Scope

/-- **What an instruction other than `nop` stands for** is a statement. -/
theorem lower_isStatement (s : Scope) {i : Instr} (h : i.opcode.action ≠ some .nop) :
    Yields (s.lower i) Effect.IsStatement := by
  intro e he
  cases s.lower_lowered i e he with
  | nothing ha => exact absurd ha h
  | stays _ _ hlabel => exact hlabel
  | jumps => exact Destination.toEffect_isStatement _
  | branches => exact Destination.toBranch_isStatement _ _

/-- What `nop` stands for is nothing. -/
theorem lower_of_nop (s : Scope) {i : Instr} (h : i.opcode.action = some .nop) :
    Yields (s.lower i) (· = .nop) := by
  intro e he
  have hlowered := s.lower_lowered i e he
  rw [h] at hlowered
  cases hlowered with
  | nothing => rfl
  | stays hnop => exact absurd rfl hnop
  | jumps ha | branches ha => cases ha

end Scope

namespace Binder

variable {b b' : Binder} {bound : List UInt32} {a : UInt32} {l : Label}

/-! ## The binders that there are -/

/-- **The binders that there are**, with the addresses of the instructions that they were given,
whatever came of it. They begin with any draft and any locals. -/
inductive Reached : List UInt32 → Binder → Prop
  | start (routine : UInt32) (scope : Scope) (draft : Draft) : Reached [] { routine, scope, draft }
  | bind {bound : List UInt32} {b : Binder} (h : Reached bound b) (i : Instr) :
    Reached (i.address :: bound) (b.bind i).2

/-- **Only the label of an address is new**: the address has the label that it had or else the next
one, which is placed and has its statement. Nothing is different otherwise. -/
structure Opens (b : Binder) (a : UInt32) (l : Label) (b' : Binder) : Prop where
  routine : b'.routine = b.routine
  scope : b'.scope = b.scope
  locals : b'.draft.locals = b.draft.locals
  label : b.labels[a]? = some l ∧ l < b.draft.labelCount ∨
    b.labels[a]? = none ∧ l = b.draft.labelCount
  own : b'.labels[a]? = some l
  others : ∀ x ≠ a, b'.labels[x]? = b.labels[x]?
  marked : ∀ k, b'.draft.marked[k]? = if k = l then some true else b.draft.marked[k]?
  stmts : b'.draft.stmts = b.draft.stmts.push (.label l)

/-- **Statements are added, and at most one label**: the next one, which is not placed. Nothing is
different otherwise. -/
structure Extends (b : Binder) (new : List Stmt) (b' : Binder) : Prop where
  routine : b'.routine = b.routine
  scope : b'.scope = b.scope
  locals : b'.draft.locals = b.draft.locals
  stmts : b'.draft.stmts.toList = b.draft.stmts.toList ++ new
  labels : (∀ x : UInt32, b'.labels[x]? = b.labels[x]?) ∧ b'.draft.marked = b.draft.marked ∨
    ∃ t : UInt32, b.labels[t]? = none ∧ b'.labels[t]? = some b.draft.labelCount ∧
      (∀ x ≠ t, b'.labels[x]? = b.labels[x]?) ∧ b'.draft.marked = b.draft.marked.push false

/-! ## One instruction -/

theorem LooksUp.extends (h : b.LooksUp a l b') (s : Stmt) : b.Extends [s] (b'.add s) where
  routine := h.routine
  scope := h.scope
  locals := h.locals
  stmts := by
    rw [← h.stmts]
    exact Array.toList_push
  labels := by
    obtain ⟨hknown, hm⟩ | ⟨hnone, rfl, hm⟩ := h.marked
    · refine .inl ⟨fun x => ?_, hm⟩
      by_cases hx : x = a
      · rw [hx, hknown]
        exact h.own
      · exact h.others x hx
    · exact .inr ⟨a, hnone, h.own, h.others, hm⟩

/-- **Appending the statement of an effect**: `nop` has none, and the label that a jump names is
looked up before. -/
theorem append_cases (b : Binder) (e : Effect) :
    e = .nop ∧ b.append e = b ∨ ∃ (lab : UInt32 → Label) (s : Stmt) (b₁ : Binder),
      e.stmts lab = [s] ∧ b.append e = b₁.add s ∧ (b₁ = b ∨ ∃ t l, b.LooksUp t l b₁) := by
  cases e with
  | nop => exact .inl ⟨rfl, rfl⟩
  | stmt s => exact .inr ⟨fun _ => 0, s, b, rfl, rfl, .inl rfl⟩
  | jump t =>
    obtain ⟨l, b₁, hat, hl⟩ := b.labelAt_looksUp t
    exact .inr ⟨fun _ => l, .jump l, b₁, rfl, by rw [append, hat], .inr ⟨t, l, hl⟩⟩
  | branch cond t =>
    obtain ⟨l, b₁, hat, hl⟩ := b.labelAt_looksUp t
    exact .inr ⟨fun _ => l, .branch cond (.jump l), b₁, rfl, by rw [append, hat], .inr ⟨t, l, hl⟩⟩

/-- What appending an effect adds is its statement and the label that this names. -/
theorem append_extends (b : Binder) (e : Effect) :
    ∃ lab : UInt32 → Label, b.Extends (e.stmts lab) (b.append e) := by
  obtain ⟨rfl, hb⟩ | ⟨lab, s, b₁, hs, hb, hl⟩ := b.append_cases e
  · exact ⟨fun _ => 0, rfl, rfl, rfl, (List.append_nil _).symm, .inl ⟨fun _ => rfl, rfl⟩⟩
  · refine ⟨lab, ?_⟩
    rw [hs, hb]
    obtain rfl | ⟨t, l, hl⟩ := hl
    · exact ⟨rfl, rfl, rfl, Array.toList_push, .inl ⟨fun _ => rfl, rfl⟩⟩
    · exact hl.extends s

theorem Numbered.append (h : b.Numbered bound) (e : Effect) : (b.append e).Numbered bound := by
  have hadd : ∀ {b' : Binder}, b'.Numbered bound → ∀ s, (b'.add s).Numbered bound :=
    fun h' _ => ⟨h'.lt, h'.inj, h'.marked, h'.known⟩
  obtain ⟨-, hb⟩ | ⟨-, s, b₁, -, hb, hl⟩ := b.append_cases e
  · rwa [hb]
  · rw [hb]
    obtain rfl | ⟨t, l, hl⟩ := hl
    · exact hadd h s
    · exact hadd (h.looksUp hl) s

theorem Numbered.congr {bound' : List UInt32} (h : b.Numbered bound)
    (hb : ∀ x, x ∈ bound ↔ x ∈ bound') : b.Numbered bound' where
  lt := h.lt
  inj := h.inj
  marked x l hx := (h.marked x l hx).trans (hb x)
  known x hx := h.known x ((hb x).mpr hx)

/-- An instruction whose address was bound changes nothing. -/
theorem Numbered.bind_of_mem (h : b.Numbered bound) {i : Instr} (hi : i.address ∈ bound) :
    ∃ l, b.bind i = (.error (.labelAlreadyMarked l), b) := by
  obtain ⟨l, hl⟩ := mem_labels_iff_exists.mp (h.known _ hi)
  have hplace : b.place i.address = .error (.labelAlreadyMarked l) := by
    simp only [place, labelAt_of_getElem? hl, h.mark_of_mem hl hi]
    rfl
  exact ⟨l, by rw [Binder.bind, hplace]⟩

/-- After a label was looked up and placed, it is marked and all other marks are as before. -/
theorem LooksUp.getElem?_marked (h : b.LooksUp a l b') (hlt : l < b'.draft.marked.size)
    (k : Label) : (b'.draft.marked.setIfInBounds l true)[k]? =
      if k = l then some true else b.draft.marked[k]? := by
  rw [Array.getElem?_setIfInBounds]
  by_cases hk : l = k
  · rw [if_pos hk, if_pos hk.symm, if_pos hlt]
  · rw [if_neg hk, if_neg (Ne.symm hk)]
    obtain ⟨-, hm⟩ | ⟨-, hl, hm⟩ := h.marked
    · rw [hm]
    · rw [hm, Array.getElem?_push, if_neg (hl ▸ Ne.symm hk)]

/-- **Placing the label of a new address** is the only change. -/
theorem Numbered.place_of_not_mem (h : b.Numbered bound) (ha : a ∉ bound) :
    ∃ l b', b.place a = .ok b' ∧ b.Opens a l b' ∧ b'.Numbered (a :: bound) := by
  obtain ⟨l, b₁, hat, hl⟩ := b.labelAt_looksUp a
  have hnumbered := h.looksUp hl
  obtain ⟨d, hmark, rfl, hplaced⟩ := hnumbered.mark hl.own ha
  refine ⟨l, _, ?_, ?_, hplaced⟩
  · simp only [place, hat, hmark]
    rfl
  · refine ⟨hl.routine, hl.scope, hl.locals, ?_, hl.own, hl.others,
      hl.getElem?_marked (hnumbered.lt a l hl.own), ?_⟩
    · obtain ⟨hknown, -⟩ | ⟨hnone, hcount, -⟩ := hl.marked
      · exact .inl ⟨hknown, h.lt a l hknown⟩
      · exact .inr ⟨hnone, hcount⟩
    · rw [← hl.stmts]
      rfl

/-- **An instruction whose address is new**: its label is placed, and if it has a meaning its
statement follows. -/
theorem Numbered.bind_of_not_mem (h : b.Numbered bound) {i : Instr} (hi : i.address ∉ bound) :
    ∃ l b₁, b.Opens i.address l b₁ ∧ b₁.Numbered (i.address :: bound) ∧
      ((∃ cause, b.scope.lower i = .error cause ∧
          b.bind i = (.error (.decode b.routine cause), b₁)) ∨
        ∃ e, b.scope.lower i = .ok e ∧ b.bind i = (.ok (), b₁.append e)) := by
  obtain ⟨l, b₁, hplace, hopens, hnumbered⟩ := h.place_of_not_mem hi
  refine ⟨l, b₁, hopens, hnumbered, ?_⟩
  cases hlower : b.scope.lower i with
  | error cause =>
    refine .inl ⟨cause, rfl, ?_⟩
    simp only [Binder.bind, hplace, hopens.scope, hlower, hopens.routine]
  | ok e =>
    refine .inr ⟨e, rfl, ?_⟩
    simp only [Binder.bind, hplace, hopens.scope, hlower]

theorem Numbered.bind (h : b.Numbered bound) (i : Instr) :
    (b.bind i).2.Numbered (i.address :: bound) := by
  by_cases hi : i.address ∈ bound
  · obtain ⟨l, hbind⟩ := h.bind_of_mem hi
    rw [hbind]
    refine h.congr fun x => ?_
    rw [List.mem_cons]
    exact ⟨.inr, fun hx => hx.elim (fun hxi => hxi ▸ hi) id⟩
  · obtain ⟨l, b₁, -, hnumbered, ⟨cause, -, hbind⟩ | ⟨e, -, hbind⟩⟩ := h.bind_of_not_mem hi
    · rw [hbind]
      exact hnumbered
    · rw [hbind]
      exact hnumbered.append e

theorem Reached.numbered (h : Reached bound b) : b.Numbered bound := by
  induction h with
  | start routine scope draft =>
    have hnone : ∀ (x : UInt32) (k : Label), ¬ (∅ : Std.TreeMap UInt32 Label)[x]? = some k := by
      intro x k hx
      rw [Std.TreeMap.getElem?_emptyc] at hx
      cases hx
    exact ⟨fun x k hx => absurd hx (hnone x k), fun x _ k hx => absurd hx (hnone x k),
      fun x k hx => absurd hx (hnone x k), nofun⟩
  | bind _ i ih => exact ih.bind i

/-- **A binding that fails leaves only its own label**, also when it is done in place, step by step.
If an instruction was bound at the address, nothing changes. Otherwise the label of the address is
placed, and if the instruction has no meaning that is the only change: no other statement, label or
local. If it has one, its statement follows, none for `nop` and one that is no label for all other
opcodes, and at most one further label. -/
theorem Reached.bind_frame (h : Reached bound b) {i : Instr} (hi : i.opcode ∈ Opcode.table) :
    (InPlace.bindInstr i).runFrom b = b.bind i ∧
    (i.address ∈ bound → ∃ l, b.bind i = (.error (.labelAlreadyMarked l), b)) ∧
    (i.address ∉ bound → ∃ l b₁, b.Opens i.address l b₁ ∧
      ((∃ cause, b.bind i = (.error (.decode b.routine cause), b₁)) ∨
        ∃ new b', b.bind i = (.ok (), b') ∧ b₁.Extends new b' ∧ new.length ≤ 1 ∧
          (∀ s ∈ new, s.label? = none) ∧ (new = [] ↔ i.opcode.number = 0))) := by
  refine ⟨InPlace.runFrom_bindInstr b i, h.numbered.bind_of_mem, fun ha => ?_⟩
  obtain ⟨l, b₁, hopens, -, hresult⟩ := h.numbered.bind_of_not_mem ha
  refine ⟨l, b₁, hopens, ?_⟩
  obtain ⟨cause, -, hbind⟩ | ⟨e, he, hbind⟩ := hresult
  · exact .inl ⟨cause, hbind⟩
  · obtain ⟨lab, hextends⟩ := b₁.append_extends e
    refine .inr ⟨_, _, hbind, hextends, ?_⟩
    rw [← Opcode.action_eq_nop_iff hi]
    by_cases hnop : i.opcode.action = some .nop
    · obtain rfl := b.scope.lower_of_nop hnop e he
      exact ⟨Nat.zero_le 1, nofun, iff_of_true rfl hnop⟩
    · obtain ⟨s, hs, hlabel⟩ := (b.scope.lower_isStatement hnop e he).exists_stmt lab
      rw [hs]
      refine ⟨Nat.le_refl 1, fun s' hs' => ?_, iff_of_false nofun hnop⟩
      rw [List.mem_singleton.mp hs']
      exact hlabel

/-- The negative of a local that there is not. -/
def negatesUnknown : Instr :=
  ⟨⟨0x15, "neg", [.load, .store], some .negate⟩, [⟨.localSlot, 8⟩], [⟨.stack, 0⟩], 100, 104⟩

theorem Reached.bind_frame_negatesUnknown : ∃ b : Binder, Reached [] b ∧
    negatesUnknown.opcode ∈ Opcode.table ∧ ∃ l b₁, b.Opens 100 l b₁ ∧
      (∃ cause, (InPlace.bindInstr negatesUnknown).runFrom b =
        (.error (.decode b.routine cause), b₁)) ∧
      ∃ l', b₁.bind negatesUnknown = (.error (.labelAlreadyMarked l'), b₁) := by
  have hstart := Reached.start 0 ⟨0, ∅⟩ {}
  have hopcode : negatesUnknown.opcode ∈ Opcode.table := by decide
  obtain ⟨hplace, -, hnew⟩ := hstart.bind_frame hopcode
  obtain ⟨l, b₁, hopens, ⟨cause, hbind⟩ | ⟨new, b', hbind, -⟩⟩ := hnew nofun
  · have hagain := hstart.bind negatesUnknown
    rw [hbind] at hagain
    obtain ⟨-, hbound, -⟩ := hagain.bind_frame hopcode
    exact ⟨_, hstart, hopcode, l, b₁, hopens, ⟨cause, hplace.trans hbind⟩,
      hbound (List.mem_singleton_self _)⟩
  · have hfail : (Binder.bind { routine := 0, scope := ⟨0, ∅⟩, draft := {} } negatesUnknown).1 =
        .error (.decode 0 (.unknownLocal 8)) := rfl
    rw [hbind] at hfail
    cases hfail

end Binder

end StoryVM
