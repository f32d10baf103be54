import StoryVM.Instr.Binder
import StoryVM.Proofs.Drafting
import StoryVM.Proofs.Reading

/-! # What a binder holds

Binding a list of instructions leaves, for each instruction, the label of its address and the
statement it stands for (`labelled`). Which number a label has depends on the order in which
addresses were met, but the numbers are handed out one per address (`Table`), so the normal form of
the body does not depend on it.

* `Numbered`: each label belongs to one address, and the labels placed are those of the instructions
  bound. Looking up a label keeps this (`Numbered.looksUp`), placing it adds its address
  (`Numbered.mark`).
* `Table`: the labels of a binder are in bijection with the addresses met.
* `Bound`: the statements, the labels and the addresses of a binder after binding some code. One
  instruction extends it (`Bound.bind`), so a whole stream does (`Bound.bindAll`). -/

namespace StoryVM

/-- The code of a routine: what each instruction stands for, at its address. -/
abbrev Code := List (UInt32 × Effect)

namespace Effect

/-- The statement of an effect, if it has one, when `lab` gives the label of an address. -/
def stmts (lab : UInt32 → Label) : Effect → List Stmt
  | nop => []
  | stmt s => [s]
  | jump target => [.jump (lab target)]
  | branch cond target => [.branch cond (.jump (lab target))]

/-- The address that the effect jumps to. -/
def target? : Effect → Option UInt32
  | jump target | branch _ target => some target
  | _ => none

@[simp] theorem stmts_nop (lab : UInt32 → Label) : stmts lab nop = [] := rfl

@[simp] theorem target?_nop : target? nop = none := rfl

theorem stmts_congr {lab lab' : UInt32 → Label} {e : Effect}
    (h : ∀ a, e.target? = some a → lab a = lab' a) : e.stmts lab = e.stmts lab' := by
  cases e <;> simp_all [stmts, target?]

end Effect

namespace Code

/-- The addresses of the instructions. -/
def addresses (code : Code) : List UInt32 := code.map (·.1)

/-- The addresses jumped to. -/
def targets (code : Code) : List UInt32 := code.filterMap (·.2.target?)

/-- **The statements of code**: each instruction's label, then its statement. -/
def labelled (lab : UInt32 → Label) (code : Code) : List Stmt :=
  code.flatMap fun p => .label (lab p.1) :: p.2.stmts lab

@[simp] theorem addresses_append (a b : Code) : addresses (a ++ b) = addresses a ++ addresses b := by
  simp [addresses]

@[simp] theorem targets_append (a b : Code) : targets (a ++ b) = targets a ++ targets b := by
  simp [targets]

@[simp] theorem addresses_singleton (a : UInt32) (e : Effect) : addresses [(a, e)] = [a] := rfl

@[simp] theorem targets_singleton (a : UInt32) (e : Effect) :
    targets [(a, e)] = e.target?.toList := by
  cases h : e.target? <;> simp [targets, h]

@[simp] theorem labelled_singleton (lab : UInt32 → Label) (a : UInt32) (e : Effect) :
    labelled lab [(a, e)] = .label (lab a) :: e.stmts lab := by
  simp [labelled]

theorem labelled_append (lab : UInt32 → Label) (a b : Code) :
    labelled lab (a ++ b) = labelled lab a ++ labelled lab b := by
  simp [labelled]

theorem labelled_congr {lab lab' : UInt32 → Label} {code : Code}
    (ha : ∀ a ∈ addresses code, lab a = lab' a) (ht : ∀ a ∈ targets code, lab a = lab' a) :
    labelled lab code = labelled lab' code := by
  refine List.flatMap_congr fun p hp => ?_
  rw [ha p.1 (List.mem_map_of_mem hp), Effect.stmts_congr fun a h => ht a ?_]
  exact List.mem_filterMap.mpr ⟨p, hp, h⟩

end Code

namespace Binder

/-! ## Labels and addresses -/

section Labels

variable {b b' : Binder} {bound : List UInt32} {a : UInt32} {l : Label}

/-- **Numbered labels**: the draft has handed them out, each for one address, and those of the
addresses in `bound` are placed. -/
structure Numbered (b : Binder) (bound : List UInt32) : Prop where
  lt : ∀ (a : UInt32) l, b.labels[a]? = some l → l < b.draft.marked.size
  inj : ∀ (a a' : UInt32) l, b.labels[a]? = some l → b.labels[a']? = some l → a = a'
  marked : ∀ (a : UInt32) l, b.labels[a]? = some l → (b.draft.isMarked l = true ↔ a ∈ bound)
  known : ∀ a ∈ bound, a ∈ b.labels

/-- **Looking up the label of an address**: it is there already, or it is the next one and not
placed. -/
structure LooksUp (b : Binder) (a : UInt32) (l : Label) (b' : Binder) : Prop where
  routine : b'.routine = b.routine
  scope : b'.scope = b.scope
  locals : b'.draft.locals = b.draft.locals
  stmts : b'.draft.stmts = b.draft.stmts
  own : b'.labels[a]? = some l
  others : ∀ x ≠ a, b'.labels[x]? = b.labels[x]?
  marked : b.labels[a]? = some l ∧ b'.draft.marked = b.draft.marked ∨
    b.labels[a]? = none ∧ l = b.draft.marked.size ∧ b'.draft.marked = b.draft.marked.push false

theorem mem_labels_iff {b : Binder} {a : UInt32} : a ∈ b.labels ↔ b.labels[a]? ≠ none := by
  rw [Std.TreeMap.mem_iff_isSome_getElem?, Option.isSome_iff_ne_none]

theorem mem_labels_iff_exists : a ∈ b.labels ↔ ∃ l, b.labels[a]? = some l :=
  mem_labels_iff.trans Option.ne_none_iff_exists'

theorem labelAt_of_getElem? (h : b.labels[a]? = some l) : b.labelAt a = (l, b) := by
  rw [labelAt, Std.TreeMap.get?_eq_getElem?, h]

theorem labelAt_looksUp (b : Binder) (a : UInt32) :
    ∃ l b', b.labelAt a = (l, b') ∧ b.LooksUp a l b' := by
  cases h : b.labels[a]? with
  | some l =>
    exact ⟨l, b, labelAt_of_getElem? h, rfl, rfl, rfl, rfl, h, fun _ _ => rfl, .inl ⟨h, rfl⟩⟩
  | none =>
    refine ⟨b.draft.marked.size, { b with
      draft := b.draft.newLabel.2
      labels := b.labels.insert a b.draft.marked.size }, ?_, rfl, rfl, rfl, rfl,
      Std.TreeMap.getElem?_insert_self, fun x hx => ?_, .inr ⟨h, rfl, rfl⟩⟩
    · rw [labelAt, Std.TreeMap.get?_eq_getElem?, h]
      rfl
    · rw [Std.TreeMap.getElem?_insert, if_neg]
      rw [Std.LawfulEqCmp.compare_eq_iff_eq]
      exact hx.symm

theorem LooksUp.getElem?_of_mem (h : b.LooksUp a l b') {x : UInt32} (hx : x ∈ b.labels) :
    b'.labels[x]? = b.labels[x]? := by
  by_cases hxa : x = a
  · obtain ⟨hknown, -⟩ | ⟨hnone, -⟩ := h.marked
    · rw [hxa, h.own, hknown]
    · exact absurd hnone (mem_labels_iff.mp (hxa ▸ hx))
  · exact h.others x hxa

/-- An address has the label that it had, or it is the one that was looked up and its label is
new. -/
theorem LooksUp.old_or_new (h : b.LooksUp a l b') {x : UInt32} {k : Label}
    (hx : b'.labels[x]? = some k) :
    b.labels[x]? = some k ∨ x = a ∧ b.labels[a]? = none ∧ k = b.draft.marked.size := by
  by_cases hxa : x = a
  · obtain rfl : l = k := Option.some.inj (h.own.symm.trans (hxa ▸ hx))
    obtain ⟨hknown, -⟩ | ⟨hnone, hl, -⟩ := h.marked
    · exact .inl (hxa ▸ hknown)
    · exact .inr ⟨hxa, hnone, hl⟩
  · exact .inl (h.others x hxa ▸ hx)

theorem LooksUp.size_le (h : b.LooksUp a l b') : b.draft.marked.size ≤ b'.draft.marked.size := by
  obtain ⟨-, hm⟩ | ⟨-, -, hm⟩ := h.marked
  · rw [hm]
  · rw [hm, Array.size_push]
    exact Nat.le_succ _

theorem LooksUp.isMarked (h : b.LooksUp a l b') (k : Label) :
    b'.draft.isMarked k = b.draft.isMarked k := by
  obtain ⟨-, hm⟩ | ⟨-, -, hm⟩ := h.marked
  · rw [Draft.isMarked, hm, Draft.isMarked]
  · rw [← Draft.isMarked_newLabel b.draft, Draft.isMarked, hm]
    rfl

theorem Numbered.looksUp (h : b.Numbered bound) (hl : b.LooksUp a l b') : b'.Numbered bound := by
  refine ⟨fun x k hx => ?_, fun x x' k hx hx' => ?_, fun x k hx => ?_, fun x hx => ?_⟩
  · obtain hx | ⟨-, hnone, rfl⟩ := hl.old_or_new hx
    · exact (h.lt x k hx).trans_le hl.size_le
    · obtain ⟨hknown, -⟩ | ⟨-, -, hm⟩ := hl.marked
      · rw [hnone] at hknown
        exact absurd hknown nofun
      · rw [hm, Array.size_push]
        exact Nat.lt_succ_self _
  · obtain hx | ⟨rfl, -, rfl⟩ := hl.old_or_new hx
    · obtain hx' | ⟨-, -, rfl⟩ := hl.old_or_new hx'
      · exact h.inj x x' k hx hx'
      · exact absurd (h.lt x _ hx) (Nat.lt_irrefl _)
    · obtain hx' | ⟨rfl, -, -⟩ := hl.old_or_new hx'
      · exact absurd (h.lt x' _ hx') (Nat.lt_irrefl _)
      · rfl
  · rw [hl.isMarked]
    obtain hx | ⟨rfl, hnone, rfl⟩ := hl.old_or_new hx
    · exact h.marked x k hx
    · -- Neither is the new label placed nor its address bound.
      refine iff_of_false (fun hm => ?_) fun hx => mem_labels_iff.mp (h.known x hx) hnone
      exact absurd (Draft.lt_of_isMarked hm) (Nat.lt_irrefl _)
  · rw [mem_labels_iff, hl.getElem?_of_mem (h.known x hx)]
    exact mem_labels_iff.mp (h.known x hx)

theorem Numbered.getElem?_marked (h : b.Numbered bound) (hl : b.labels[a]? = some l) :
    b.draft.marked[l]? = some (decide (a ∈ bound)) := by
  have hmarked := h.marked a l hl
  rw [Draft.isMarked_iff] at hmarked
  rw [Array.getElem?_eq_getElem (h.lt a l hl)] at hmarked ⊢
  rw [Option.some.injEq] at hmarked ⊢
  exact Bool.eq_iff_iff.mpr (hmarked.trans decide_eq_true_iff.symm)

/-- A label is placed once only. -/
theorem Numbered.mark_of_mem (h : b.Numbered bound) (hl : b.labels[a]? = some l) (ha : a ∈ bound) :
    b.draft.mark l = .error (.labelAlreadyMarked l) := by
  rw [Draft.mark, h.getElem?_marked hl, decide_eq_true ha]

/-- **Placing the label of an address** whose label is not placed yet. -/
theorem Numbered.mark (h : b.Numbered bound) (hl : b.labels[a]? = some l) (ha : a ∉ bound) :
    ∃ d, b.draft.mark l = .ok d ∧
      d = { b.draft.add (.label l) with marked := b.draft.marked.setIfInBounds l true } ∧
      Numbered { b with draft := d } (a :: bound) := by
  have hlt := h.lt a l hl
  have hfalse := h.getElem?_marked hl
  rw [decide_eq_false ha] at hfalse
  refine ⟨_, Draft.mark_ok_iff.mpr ⟨hfalse, rfl⟩, rfl, fun x k hx => ?_, h.inj, fun x k hx => ?_,
    fun x hx => ?_⟩
  · rw [Array.size_setIfInBounds]
    exact h.lt x k hx
  · rw [Draft.isMarked_iff, Array.getElem?_setIfInBounds, List.mem_cons]
    by_cases hk : l = k
    · have hxa : x = a := h.inj x a l (hk ▸ hx) hl
      rw [if_pos hk, if_pos hlt]
      exact iff_of_true rfl (.inl hxa)
    · have hxa : x ≠ a := fun hxa => hk (Option.some.inj (hl.symm.trans (hxa ▸ hx)))
      rw [if_neg hk, ← Draft.isMarked_iff, h.marked x k hx, or_iff_right hxa]
  · obtain rfl | hx := List.mem_cons.mp hx
    · exact mem_labels_iff_exists.mpr ⟨l, hl⟩
    · exact h.known x hx

end Labels

/-- The label of an address that has one. -/
def labelOf (b : Binder) (a : UInt32) : Label := b.labels[a]?.getD 0

/-- **The label table of a binder**: its labels belong to one address each, and the labels placed
are those of the addresses in `placed`. -/
structure Table (b : Binder) (placed : List UInt32) : Prop where
  lt : ∀ (a : UInt32) l, b.labels[a]? = some l → l < b.draft.marked.size
  inj : ∀ (a a' : UInt32) l, b.labels[a]? = some l → b.labels[a']? = some l → a = a'
  onto : ∀ l < b.draft.marked.size, ∃ a : UInt32, b.labels[a]? = some l
  marked : ∀ (a : UInt32) l, b.labels[a]? = some l → (b.draft.isMarked l = true ↔ a ∈ placed)
  placed : ∀ a ∈ placed, a ∈ b.labels

theorem Table.numbered {b : Binder} {placed : List UInt32} (h : b.Table placed) :
    b.Numbered placed := ⟨h.lt, h.inj, h.marked, h.placed⟩

theorem labelOf_of_getElem? {b : Binder} {a : UInt32} {l : Label} (h : b.labels[a]? = some l) :
    b.labelOf a = l := by
  rw [labelOf, h, Option.getD_some]

/-- The binders work on the same routine with the same locals, and addresses keep the labels they
have. -/
structure Same (b b' : Binder) : Prop where
  scope : b'.scope = b.scope
  routine : b'.routine = b.routine
  locals : b'.draft.locals = b.draft.locals
  labels : ∀ a ∈ b.labels, b'.labels[a]? = b.labels[a]?

theorem Same.trans {b₁ b₂ b₃ : Binder} (h : b₁.Same b₂) (h' : b₂.Same b₃) : b₁.Same b₃ where
  scope := h'.scope.trans h.scope
  routine := h'.routine.trans h.routine
  locals := h'.locals.trans h.locals
  labels a ha := by
    have hmem : a ∈ b₂.labels := by
      rw [mem_labels_iff, h.labels a ha]
      exact mem_labels_iff.mp ha
    rw [h'.labels a hmem, h.labels a ha]

/-- **Asking for the label of an address** gives it one; other addresses keep the labels they have,
no label is placed and no statement added. -/
theorem labelAt_spec {b : Binder} {placed : List UInt32} (h : b.Table placed) (a : UInt32) :
    ∃ b', b.labelAt a = (b'.labelOf a, b') ∧ b'.Table placed ∧ a ∈ b'.labels ∧
      (∀ x, x ≠ a ∨ x ∈ b.labels → b'.labels[x]? = b.labels[x]?) ∧
      b'.draft.stmts = b.draft.stmts ∧ b.Same b' := by
  obtain ⟨l, b', hat, hl⟩ := b.labelAt_looksUp a
  obtain ⟨hlt, hinj, hmarked, hplaced⟩ := h.numbered.looksUp hl
  have honto : ∀ k < b'.draft.marked.size, ∃ x : UInt32, b'.labels[x]? = some k := by
    have hold : ∀ k < b.draft.marked.size, ∃ x : UInt32, b'.labels[x]? = some k := by
      intro k hk
      obtain ⟨x, hx⟩ := h.onto k hk
      exact ⟨x, (hl.getElem?_of_mem (mem_labels_iff_exists.mpr ⟨k, hx⟩)).trans hx⟩
    obtain ⟨-, hm⟩ | ⟨-, rfl, hm⟩ := hl.marked
    · rw [hm]
      exact hold
    · rw [hm, Array.size_push]
      intro k hk
      obtain hk | rfl := Nat.lt_succ_iff_lt_or_eq.mp hk
      · exact hold k hk
      · exact ⟨a, hl.own⟩
  refine ⟨b', ?_, ⟨hlt, hinj, honto, hmarked, hplaced⟩, mem_labels_iff_exists.mpr ⟨l, hl.own⟩, ?_,
    hl.stmts, hl.scope, hl.routine, hl.locals, fun x hx => hl.getElem?_of_mem hx⟩
  · rw [labelOf_of_getElem? hl.own, hat]
  · rintro x (hx | hx)
    · exact hl.others x hx
    · exact hl.getElem?_of_mem hx

/-- **Placing a label** that is in the table and not placed yet. -/
theorem mark_spec {b : Binder} {placed : List UInt32} (h : b.Table placed) {a : UInt32}
    (ha : a ∈ b.labels) (hn : a ∉ placed) :
    ∃ d, b.draft.mark (b.labelOf a) = .ok d ∧ Table { b with draft := d } (placed ++ [a]) ∧
      d.stmts = b.draft.stmts.push (.label (b.labelOf a)) ∧ d.locals = b.draft.locals := by
  obtain ⟨l, hl⟩ := mem_labels_iff_exists.mp ha
  obtain ⟨d, hd, rfl, hlt, hinj, hmarked, hknown⟩ := h.numbered.mark hl hn
  have hmem : ∀ x, x ∈ placed ++ [a] ↔ x ∈ a :: placed := by simp [or_comm]
  rw [labelOf_of_getElem? hl]
  refine ⟨_, hd, ⟨hlt, hinj, fun k hk => ?_, fun x k hx => ?_, fun x hx => ?_⟩, rfl, rfl⟩
  · rw [Array.size_setIfInBounds] at hk
    exact h.onto k hk
  · rw [hmem]
    exact hmarked x k hx
  · exact hknown x ((hmem x).mp hx)

theorem mark_placed {b : Binder} {placed : List UInt32} (h : b.Table placed) {a : UInt32}
    (ha : a ∈ placed) : b.draft.mark (b.labelOf a) = .error (.labelAlreadyMarked (b.labelOf a)) := by
  obtain ⟨l, hl⟩ := mem_labels_iff_exists.mp (h.placed a ha)
  rw [labelOf_of_getElem? hl]
  exact h.numbered.mark_of_mem hl ha

/-! ## Bound code -/

/-- **A binder that has bound some code**: its statements are those of the code, and its labels
those of the code's addresses and targets. -/
structure Bound (b : Binder) (code : Code) : Prop where
  table : b.Table code.addresses
  nodup : code.addresses.Nodup
  known : ∀ a, a ∈ b.labels ↔ a ∈ code.addresses ∨ a ∈ code.targets
  stmts : b.draft.stmts.toList = code.labelled b.labelOf

/-- Labels that are known already keep their numbers, so the statements bound so far stay. -/
theorem Bound.labelled_eq {b : Binder} {code : Code} (h : b.Bound code) {b' : Binder}
    (hl : ∀ a ∈ b.labels, b'.labels[a]? = b.labels[a]?) :
    code.labelled b'.labelOf = code.labelled b.labelOf := by
  refine Code.labelled_congr (fun a ha => ?_) fun a ha => ?_
  · rw [labelOf, labelOf, hl a ((h.known a).mpr (Or.inl ha))]
  · rw [labelOf, labelOf, hl a ((h.known a).mpr (Or.inr ha))]

theorem mem_labels_of_labelAt {b b' : Binder} {a : UInt32} (ha : a ∈ b'.labels)
    (hk : ∀ x, x ≠ a ∨ x ∈ b.labels → b'.labels[x]? = b.labels[x]?) (x : UInt32) :
    x ∈ b'.labels ↔ x = a ∨ x ∈ b.labels := by
  by_cases hx : x = a
  · simp [hx, ha]
  · rw [mem_labels_iff, mem_labels_iff, hk x (Or.inl hx)]
    simp [hx]

/-- **Placing the label of a new instruction.** -/
theorem Bound.place {b : Binder} {code : Code} (h : b.Bound code) {a : UInt32}
    (ha : a ∉ code.addresses) :
    ∃ b', b.place a = .ok b' ∧ b'.Bound (code ++ [(a, .nop)]) ∧ b.Same b' := by
  obtain ⟨b₁, hat, htable, hmem, hkeep, hstmts, hsame⟩ := labelAt_spec h.table a
  obtain ⟨d, hmark, htable', hd, hlocals⟩ := mark_spec htable hmem ha
  refine ⟨{ b₁ with draft := d }, ?_, ⟨?_, ?_, ?_, ?_⟩, hsame.scope, hsame.routine, ?_,
    hsame.labels⟩
  · simp only [Binder.place, hat]
    rw [hmark]
    rfl
  · simpa using htable'
  · rw [Code.addresses_append]
    exact h.nodup.append (by simp) (by simpa using ha)
  · intro x
    have := mem_labels_of_labelAt hmem hkeep x
    have hx := h.known x
    simp only [Code.addresses_append, Code.addresses_singleton, Code.targets_append,
      Code.targets_singleton, Effect.target?_nop, Option.toList_none, List.mem_append,
      List.mem_singleton, List.not_mem_nil]
    tauto
  · have hold : code.labelled b₁.labelOf = code.labelled b.labelOf :=
      h.labelled_eq fun x hx => hkeep x (Or.inr hx)
    rw [hd, Array.toList_push, hstmts, h.stmts, ← hold, Code.labelled_append]
    rfl
  · exact hlocals.trans hsame.locals

/-- The label of a jump's target is asked for, and the jump is added. -/
theorem Bound.addJump {b : Binder} {code : Code} {a t : UInt32} (h : b.Bound (code ++ [(a, .nop)]))
    {e : Effect} (ht : e.target? = some t) :
    ∃ b₁, b.labelAt t = (b₁.labelOf t, b₁) ∧ ∀ s, e.stmts b₁.labelOf = [s] →
      (b₁.add s).Bound (code ++ [(a, e)]) ∧ b.Same (b₁.add s) := by
  obtain ⟨b₁, hat, htable, hmem, hkeep, hstmts, hsame⟩ := labelAt_spec h.table t
  refine ⟨b₁, hat, fun s hs => ⟨⟨?_, ?_, ?_, ?_⟩, hsame.scope, hsame.routine,
    hsame.locals, hsame.labels⟩⟩
  · simp only [Code.addresses_append] at htable ⊢
    exact ⟨htable.lt, htable.inj, htable.onto, htable.marked, htable.placed⟩
  · simpa using h.nodup
  · intro x
    have : x ∈ (b₁.add s).labels ↔ _ := mem_labels_of_labelAt hmem hkeep x
    have hx := h.known x
    simp only [Code.addresses_append, Code.addresses_singleton, Code.targets_append,
      Code.targets_singleton, Effect.target?_nop, ht, Option.toList_none, Option.toList_some,
      List.mem_append, List.mem_singleton, List.not_mem_nil] at hx ⊢
    tauto
  · have hold : Code.labelled b₁.labelOf (code ++ [(a, .nop)]) =
        Code.labelled b.labelOf (code ++ [(a, .nop)]) :=
      h.labelled_eq fun x hx => hkeep x (Or.inr hx)
    have hof : (b₁.add s).labelOf = b₁.labelOf := rfl
    have hadd : (b₁.add s).draft.stmts.toList = b₁.draft.stmts.toList ++ [s] := Array.toList_push
    rw [hadd, hstmts, h.stmts, ← hold, hof, Code.labelled_append, Code.labelled_append]
    simp [hs]

/-- **Appending the statement of an instruction** whose label has been placed. -/
theorem Bound.append {b : Binder} {code : Code} {a : UInt32} (h : b.Bound (code ++ [(a, .nop)]))
    (e : Effect) : (b.append e).Bound (code ++ [(a, e)]) ∧ b.Same (b.append e) := by
  cases e with
  | nop => exact ⟨h, rfl, rfl, rfl, fun _ _ => rfl⟩
  | stmt s =>
    refine ⟨⟨?_, ?_, ?_, ?_⟩, rfl, rfl, rfl, fun _ _ => rfl⟩
    · have := h.table
      simp only [Code.addresses_append] at this ⊢
      exact ⟨this.lt, this.inj, this.onto, this.marked, this.placed⟩
    · simpa using h.nodup
    · intro x
      have hx : x ∈ (b.append (.stmt s)).labels ↔ _ := h.known x
      simpa [Effect.target?] using hx
    · have hof : (b.append (.stmt s)).labelOf = b.labelOf := rfl
      have hadd : (b.append (.stmt s)).draft.stmts.toList = b.draft.stmts.toList ++ [s] :=
        Array.toList_push
      rw [hadd, hof, h.stmts, Code.labelled_append, Code.labelled_append]
      simp [Effect.stmts]
  | jump t =>
    obtain ⟨b₁, hat, hadd⟩ := h.addJump (e := .jump t) rfl
    simpa only [Binder.append, hat] using hadd (.jump (b₁.labelOf t)) rfl
  | branch cond t =>
    obtain ⟨b₁, hat, hadd⟩ := h.addJump (e := .branch cond t) rfl
    simpa only [Binder.append, hat] using hadd (.branch cond (.jump (b₁.labelOf t))) rfl

/-- **Binding an instruction** extends the code by it, if its address is new and it has a meaning;
without a meaning the binding fails. -/
theorem Bound.bind {b : Binder} {code : Code} (h : b.Bound code) {i : Instr}
    (hi : i.address ∉ code.addresses) :
    (∀ e, b.scope.lower i = .ok e →
      ∃ b', b.bind i = (.ok (), b') ∧ b'.Bound (code ++ [(i.address, e)]) ∧ b.Same b') ∧
    ∀ cause, b.scope.lower i = .error cause →
      ∃ b', b.bind i = (.error (.decode b.routine cause), b') := by
  obtain ⟨b₁, hplace, hbound, hsame⟩ := h.place hi
  refine ⟨fun e he => ?_, fun cause hc => ?_⟩
  · obtain ⟨hbound', hsame'⟩ := hbound.append e
    refine ⟨b₁.append e, ?_, hbound', hsame.trans hsame'⟩
    simp only [Binder.bind, hplace, hsame.scope, he]
  · refine ⟨b₁, ?_⟩
    simp only [Binder.bind, hplace, hsame.scope, hc, hsame.routine]

/-- An instruction is bound once only. -/
theorem Bound.bind_again {b : Binder} {code : Code} (h : b.Bound code) {i : Instr}
    (hi : i.address ∈ code.addresses) : ∃ l, b.bind i = (.error (.labelAlreadyMarked l), b) := by
  obtain ⟨b₁, hat, htable, -⟩ := labelAt_spec h.table i.address
  refine ⟨b₁.labelOf i.address, ?_⟩
  have hmark := mark_placed htable hi
  simp only [Binder.bind, Binder.place, hat, hmark]
  rfl

end Binder

/-! ## Streams -/

namespace Scope

/-- What the instructions of a stream stand for, up to the first without a meaning. -/
def lowerAll (s : Scope) : List Instr → Except DecodeFault Code
  | [] => .ok []
  | i :: rest => do
    let e ← s.lower i
    return (i.address, e) :: (← s.lowerAll rest)

theorem lowerAll_ok_iff {s : Scope} {instrs : List Instr} {code : Code} :
    s.lowerAll instrs = .ok code ↔
      List.Forall₂ (fun i p => p.1 = i.address ∧ s.lower i = .ok p.2) instrs code := by
  induction instrs generalizing code with
  | nil =>
    rw [List.forall₂_nil_left_iff]
    exact ⟨fun h => (Except.ok.inj h).symm, fun h => h ▸ rfl⟩
  | cons i rest ih =>
    rw [lowerAll, List.forall₂_cons_left_iff, bind_ok_iff]
    constructor
    · rintro ⟨e, he, h⟩
      obtain ⟨more, hmore, h⟩ := bind_ok_iff.mp h
      exact ⟨(i.address, e), more, ⟨rfl, he⟩, ih.mp hmore, (Except.ok.inj h).symm⟩
    · rintro ⟨⟨a, e⟩, more, ⟨rfl, he⟩, hmore, rfl⟩
      exact ⟨e, he, bind_ok_iff.mpr ⟨more, ih.mpr hmore, rfl⟩⟩

theorem addresses_of_lowerAll {s : Scope} {instrs : List Instr} {code : Code}
    (h : s.lowerAll instrs = .ok code) : code.addresses = instrs.map (·.address) := by
  induction lowerAll_ok_iff.mp h with
  | nil => rfl
  | cons hp _ ih => exact congrArg₂ List.cons hp.1 (ih (lowerAll_ok_iff.mpr ‹_›))

end Scope

namespace Binder

/-- **Binding a stream** binds all of its instructions, if their addresses are new and differ and
all of them have a meaning; the first without a meaning makes it fail. -/
theorem Bound.bindAll {b : Binder} {code : Code} (h : b.Bound code) {instrs : List Instr}
    (hi : (code.addresses ++ instrs.map (·.address)).Nodup) :
    (∀ more, b.scope.lowerAll instrs = .ok more →
      ∃ b', b.bindAll instrs = .ok b' ∧ b'.Bound (code ++ more) ∧ b.Same b') ∧
    ∀ cause, b.scope.lowerAll instrs = .error cause →
      b.bindAll instrs = .error (.decode b.routine cause) := by
  induction instrs generalizing b code with
  | nil =>
    refine ⟨fun more hm => ?_, fun cause hc => ?_⟩
    · cases hm
      exact ⟨b, rfl, by simpa using h, rfl, rfl, rfl, fun _ _ => rfl⟩
    · cases hc
  | cons i rest ih =>
    have hnew : i.address ∉ code.addresses := fun hmem =>
      (List.nodup_append.mp hi).2.2 i.address hmem i.address (by simp) rfl
    obtain ⟨hok, herr⟩ := h.bind hnew
    simp only [Scope.lowerAll, Binder.bindAll]
    cases he : b.scope.lower i with
    | error cause =>
      obtain ⟨b', hb'⟩ := herr cause he
      rw [hb']
      refine ⟨fun more hm => ?_, fun cause' hc => ?_⟩
      · simp [Bind.bind, Except.bind] at hm
      · simp only [Bind.bind, Except.bind, Except.error.injEq] at hc
        rw [hc]
    | ok e =>
      obtain ⟨b', hb', hbound, hsame⟩ := hok e he
      rw [hb']
      have hnodup : ((code ++ [(i.address, e)]).addresses ++ rest.map (·.address)).Nodup := by
        simpa [Code.addresses] using hi
      obtain ⟨ihok, iherr⟩ := ih hbound hnodup
      rw [hsame.scope] at ihok iherr
      cases hr : b.scope.lowerAll rest with
      | error cause =>
        refine ⟨fun more hm => ?_, fun cause' hc => ?_⟩
        · simp [Bind.bind, Except.bind] at hm
        · simp only [Bind.bind, Except.bind, Except.error.injEq] at hc
          rw [← hc, ← hsame.routine]
          exact iherr cause hr
      | ok more =>
        refine ⟨fun all hm => ?_, fun cause' hc => ?_⟩
        · simp only [Bind.bind, Except.bind, Pure.pure, Except.pure, Except.ok.injEq] at hm
          obtain ⟨b'', hb'', hbound', hsame'⟩ := ihok more hr
          refine ⟨b'', hb'', ?_, hsame.trans hsame'⟩
          rw [← hm]
          simpa using hbound'
        · simp [Bind.bind, Except.bind, Pure.pure, Except.pure] at hc

end Binder

end StoryVM
