import StoryVM.Ir.Draft
import StoryVM.Proofs.NormalForm

/-! # Drafting sessions

A draft is made by a sequence of edits: labels are handed out and marked, locals declared, statements
added, in any order (`Draft.ofEdits`). What a draft holds at the end is told by the edits that were
made and by what they answered at the time.

* `Made`: an edit was made to a draft with a given property. The labels handed out are those below
  the number of labels (`handsOut_iff`), and the labels marked are those whose marking succeeded
  (`marks_iff`).
* `Consistent`: the labels marked are those with a label statement, and each has one. Every session
  that adds no label statements by hand ends in such a draft (`consistent_ofEdits`).
* `finish_ok_iff`, `finish_error_iff`: when a body is finished, and what is reported otherwise. -/

namespace StoryVM

/-- **An edit** of a draft. -/
inductive Edit where
  /-- Hand out a label. -/
  | newLabel
  /-- Mark the current position with a label. -/
  | mark (l : Label)
  /-- Declare a local. -/
  | declareLocal (w : Width)
  /-- Add a statement. -/
  | add (s : Stmt)
  deriving DecidableEq, Repr

/-- The width of the local that an edit declares. -/
def Edit.width? : Edit → Option Width
  | declareLocal w => some w
  | _ => none

namespace Draft

/-- The draft after an edit. A marking that fails changes nothing. -/
def edit (d : Draft) : Edit → Draft
  | .newLabel => d.newLabel.2
  | .mark l => (d.mark l).toOption.getD d
  | .declareLocal w => (d.declareLocal w).2
  | .add s => d.add s

/-- **The draft after a session**, which starts with nothing. -/
def ofEdits (edits : List Edit) : Draft := edits.foldl edit {}

theorem ofEdits_concat (edits : List Edit) (e : Edit) :
    ofEdits (edits ++ [e]) = (ofEdits edits).edit e := by
  simp [ofEdits]

/-! ## What was done in a session -/

/-- A place in a list with one element more is its end, or a place in the list. -/
theorem split_concat {α : Type} {xs before after : List α} {x last : α}
    (h : xs ++ [last] = before ++ x :: after) :
    (xs = before ∧ last = x) ∨ ∃ more, xs = before ++ x :: more := by
  rcases List.eq_nil_or_concat after with rfl | ⟨more, y, rfl⟩
  · obtain ⟨hxs, hlast⟩ := List.append_inj' h rfl
    exact Or.inl ⟨hxs, List.head_eq_of_cons_eq hlast⟩
  · have hsplit : xs ++ [last] = (before ++ x :: more) ++ [y] := by simpa using h
    exact Or.inr ⟨more, (List.append_inj' hsplit rfl).1⟩

/-- **The edit was made** in the session, to a draft with the property. -/
def Made (edits : List Edit) (e : Edit) (P : Draft → Prop) : Prop :=
  ∃ before after, edits = before ++ e :: after ∧ P (ofEdits before)

/-- The label was handed out. -/
def HandsOut (edits : List Edit) (l : Label) : Prop := Made edits .newLabel (·.newLabel.1 = l)

/-- The label was marked: an edit that marks it succeeded. -/
def Marks (edits : List Edit) (l : Label) : Prop := Made edits (.mark l) (∃ d, ·.mark l = .ok d)

theorem not_made_nil (e : Edit) (P : Draft → Prop) : ¬ Made [] e P := by
  rintro ⟨before, after, h, -⟩
  cases before <;> cases h

theorem made_concat {edits : List Edit} {e last : Edit} {P : Draft → Prop} :
    Made (edits ++ [last]) e P ↔ Made edits e P ∨ last = e ∧ P (ofEdits edits) := by
  constructor
  · rintro ⟨before, after, h, hP⟩
    rcases split_concat h with ⟨rfl, rfl⟩ | ⟨more, rfl⟩
    · exact Or.inr ⟨rfl, hP⟩
    · exact Or.inl ⟨before, more, rfl, hP⟩
  · rintro (⟨before, after, rfl, hP⟩ | ⟨rfl, hP⟩)
    · exact ⟨before, after ++ [last], by simp, hP⟩
    · exact ⟨edits, [], rfl, hP⟩

theorem Made.mem {edits : List Edit} {e : Edit} {P : Draft → Prop} (h : Made edits e P) :
    e ∈ edits := by
  obtain ⟨before, after, rfl, -⟩ := h
  simp

theorem Made.imp {edits : List Edit} {e : Edit} {P Q : Draft → Prop} (h : Made edits e P)
    (hPQ : ∀ d, P d → Q d) : Made edits e Q := by
  obtain ⟨before, after, he, hP⟩ := h
  exact ⟨before, after, he, hPQ _ hP⟩

/-! ## Marking -/

theorem mark_ok_iff {d d' : Draft} {l : Label} : d.mark l = .ok d' ↔ d.marked[l]? = some false ∧
    d' = { d.add (.label l) with marked := d.marked.setIfInBounds l true } := by
  unfold mark
  split
  · next h => simp [h]
  · next h => simp [h]
  · next h => simp [h, eq_comm]

/-- Marking a label puts its statement at the current position, or changes nothing. -/
theorem edit_mark (d : Draft) (l : Label) :
    (d.marked[l]? = some false ∧
        d.edit (.mark l) = { d.add (.label l) with marked := d.marked.setIfInBounds l true }) ∨
      (∀ d', d.mark l ≠ .ok d') ∧ d.edit (.mark l) = d := by
  rw [edit]
  cases h : d.mark l with
  | error f => exact Or.inr ⟨nofun, rfl⟩
  | ok d' =>
    obtain ⟨hmarked, rfl⟩ := mark_ok_iff.mp h
    exact Or.inl ⟨hmarked, rfl⟩

theorem isMarked_iff {d : Draft} {l : Label} : d.isMarked l = true ↔ d.marked[l]? = some true := by
  rw [isMarked, Array.getD_eq_getD_getElem?]
  cases d.marked[l]? <;> simp

theorem isMarked_newLabel (d : Draft) (l : Label) : d.newLabel.2.isMarked l = d.isMarked l := by
  simp only [isMarked, newLabel, Array.getD_eq_getD_getElem?, Array.getElem?_push]
  split
  · next h => simp [h]
  · rfl

theorem lt_of_isMarked {d : Draft} {l : Label} (h : d.isMarked l = true) : l < d.labelCount :=
  (Array.getElem?_eq_some_iff.mp (isMarked_iff.mp h)).1

/-- **What an edit does to the marks**: a label is marked if it was before, or by a marking that
succeeds. -/
theorem isMarked_edit (d : Draft) (e : Edit) (l : Label) :
    (d.edit e).isMarked l = true ↔ d.isMarked l = true ∨ e = .mark l ∧ ∃ d', d.mark l = .ok d' := by
  cases e with
  | newLabel => simp [edit, isMarked_newLabel]
  | declareLocal w => simp [edit, declareLocal, isMarked]
  | add s => simp [edit, add, isMarked]
  | mark k =>
    rcases d.edit_mark k with ⟨hfalse, he⟩ | ⟨hfail, he⟩
    · have hok : ∃ d', d.mark k = .ok d' := ⟨_, mark_ok_iff.mpr ⟨hfalse, rfl⟩⟩
      obtain ⟨hk, -⟩ := Array.getElem?_eq_some_iff.mp hfalse
      rw [he]
      by_cases hkl : k = l
      · subst hkl
        simp [isMarked_iff, hok, hk]
      · simp [isMarked_iff, hkl, add]
    · rw [he]
      refine ⟨Or.inl, fun h => h.elim id ?_⟩
      rintro ⟨⟨⟩, d', hd'⟩
      exact absurd hd' (hfail d')

/-- Only handing out a label changes the number of labels. -/
theorem labelCount_edit (d : Draft) (e : Edit) :
    (d.edit e).labelCount = if e = .newLabel then d.labelCount + 1 else d.labelCount := by
  cases e with
  | newLabel => simp [edit, newLabel, labelCount]
  | mark l => rcases d.edit_mark l with ⟨-, he⟩ | ⟨-, he⟩ <;> simp [he, labelCount]
  | declareLocal w => simp [edit, declareLocal, labelCount]
  | add s => simp [edit, add, labelCount]

/-- **The labels handed out** are those below the number of labels. -/
theorem handsOut_iff {edits : List Edit} {l : Label} :
    HandsOut edits l ↔ l < (ofEdits edits).labelCount := by
  unfold HandsOut
  induction edits using List.reverseRecOn with
  | nil => exact iff_of_false (not_made_nil _ _) (Nat.not_lt_zero l)
  | append_singleton edits e ih =>
    rw [made_concat, ih, ofEdits_concat, labelCount_edit]
    by_cases he : e = .newLabel
    · have hnew : (ofEdits edits).newLabel.1 = (ofEdits edits).labelCount := rfl
      rw [if_pos he, hnew, Nat.lt_succ_iff_lt_or_eq, eq_comm (a := l), and_iff_right he]
    · rw [if_neg he]
      simp [he]

/-- **The labels marked** are those whose marking succeeded. -/
theorem marks_iff {edits : List Edit} {l : Label} :
    Marks edits l ↔ (ofEdits edits).isMarked l = true := by
  unfold Marks
  induction edits using List.reverseRecOn with
  | nil => exact iff_of_false (not_made_nil _ _) (by simp [ofEdits, isMarked])
  | append_singleton edits e ih => rw [made_concat, ih, ofEdits_concat, isMarked_edit]

/-- Only labels that were handed out can be marked. -/
theorem handsOut_of_marks {edits : List Edit} {l : Label} (h : Marks edits l) :
    HandsOut edits l :=
  handsOut_iff.mpr (lt_of_isMarked (marks_iff.mp h))

/-- **The locals of a session** are those declared, in order. -/
theorem locals_ofEdits (edits : List Edit) :
    (ofEdits edits).locals.toList = (edits.filterMap Edit.width?).mapIdx Local.mk := by
  induction edits using List.reverseRecOn with
  | nil => rfl
  | append_singleton edits e ih =>
    rw [ofEdits_concat, List.filterMap_append]
    cases e with
    | declareLocal w =>
      have hsize : (ofEdits edits).locals.size = (edits.filterMap Edit.width?).length := by
        rw [← Array.length_toList, ih, List.length_mapIdx]
      have hnew : ((ofEdits edits).edit (.declareLocal w)).locals.toList =
          (ofEdits edits).locals.toList ++ [⟨(ofEdits edits).locals.size, w⟩] :=
        Array.toList_push
      have hone : [Edit.declareLocal w].filterMap Edit.width? = [w] := rfl
      rw [hnew, ih, hsize, hone, List.mapIdx_concat]
    | mark l =>
      have hsame : ((ofEdits edits).edit (.mark l)).locals = (ofEdits edits).locals := by
        rcases (ofEdits edits).edit_mark l with ⟨-, he⟩ | ⟨-, he⟩
        · rw [he]
          rfl
        · rw [he]
      have hnone : [Edit.mark l].filterMap Edit.width? = [] := rfl
      rw [hsame, ih, hnone, List.append_nil]
    | newLabel =>
      have hnone : [Edit.newLabel].filterMap Edit.width? = [] := rfl
      rw [hnone, List.append_nil]
      exact ih
    | add s =>
      have hnone : [Edit.add s].filterMap Edit.width? = [] := rfl
      rw [hnone, List.append_nil]
      exact ih

/-! ## Statements -/

/-- The edit adds no label statement by hand. -/
def AddsNoLabel (e : Edit) : Prop := ∀ s, e = .add s → s.label? = none

/-- **What an edit does to the statements**: at most one is appended, which was added or is the
statement of a label that was marked. -/
theorem stmts_edit (d : Draft) (e : Edit) :
    (d.edit e).stmts.toList = d.stmts.toList ∨
      ∃ s, (d.edit e).stmts.toList = d.stmts.toList ++ [s] ∧
        (e = .add s ∨ ∃ l, s = .label l ∧ e = .mark l ∧ ∃ d', d.mark l = .ok d') := by
  cases e with
  | newLabel => exact Or.inl rfl
  | declareLocal w => exact Or.inl rfl
  | add s => exact Or.inr ⟨s, Array.toList_push, Or.inl rfl⟩
  | mark l =>
    rcases d.edit_mark l with ⟨hfalse, he⟩ | ⟨-, he⟩
    · refine Or.inr ⟨.label l, ?_, Or.inr ⟨l, rfl, rfl, _, mark_ok_iff.mpr ⟨hfalse, rfl⟩⟩⟩
      rw [he]
      exact Array.toList_push
    · exact Or.inl (by rw [he])

/-- **Where a statement stems from** that stands behind the statements `pre`: it was added by hand
when the draft held those, or it is the statement of a label that was marked then. -/
def Stems (edits : List Edit) (pre : List Stmt) (s : Stmt) : Prop :=
  Made edits (.add s) (·.stmts.toList = pre) ∨
    ∃ l, s = .label l ∧
      Made edits (.mark l) (fun d => (∃ d', d.mark l = .ok d') ∧ d.stmts.toList = pre)

theorem Stems.concat {edits : List Edit} {pre : List Stmt} {s : Stmt} (h : Stems edits pre s)
    (last : Edit) : Stems (edits ++ [last]) pre s := by
  rcases h with hadd | ⟨l, hl, hmark⟩
  · exact Or.inl (made_concat.mpr (Or.inl hadd))
  · exact Or.inr ⟨l, hl, made_concat.mpr (Or.inl hmark)⟩

/-- **Every statement of a draft stems from an edit.** -/
theorem stems_of_stmts {edits : List Edit} {pre post : List Stmt} {s : Stmt}
    (h : (ofEdits edits).stmts.toList = pre ++ s :: post) : Stems edits pre s := by
  induction edits using List.reverseRecOn generalizing post with
  | nil => cases pre <;> cases h
  | append_singleton edits e ih =>
    rw [ofEdits_concat] at h
    rcases (ofEdits edits).stmts_edit e with hsame | ⟨new, hnew, horigin⟩
    · exact (ih (hsame ▸ h)).concat e
    · rw [hnew] at h
      rcases split_concat h with ⟨hpre, rfl⟩ | ⟨more, hmore⟩
      · rcases horigin with he | ⟨l, hl, he, hok⟩
        · exact Or.inl (made_concat.mpr (Or.inr ⟨he, hpre⟩))
        · exact Or.inr ⟨l, hl, made_concat.mpr (Or.inr ⟨he, hok, hpre⟩)⟩
      · exact (ih hmore).concat e

theorem mem_stmts {edits : List Edit} {s : Stmt} (h : s ∈ (ofEdits edits).stmts.toList) :
    .add s ∈ edits ∨ ∃ l, s = .label l := by
  obtain ⟨pre, post, hsplit⟩ := List.append_of_mem h
  rcases stems_of_stmts hsplit with hadd | ⟨l, hl, -⟩
  · exact Or.inl hadd.mem
  · exact Or.inr ⟨l, hl⟩

theorem mem_stmts_of_add {edits : List Edit} {s : Stmt} (h : .add s ∈ edits) :
    s ∈ (ofEdits edits).stmts.toList := by
  induction edits using List.reverseRecOn with
  | nil => cases h
  | append_singleton edits e ih =>
    rw [ofEdits_concat]
    rcases List.mem_append.mp h with hmem | hlast
    · rcases (ofEdits edits).stmts_edit e with hsame | ⟨new, hnew, -⟩
      · rw [hsame]
        exact ih hmem
      · rw [hnew]
        exact List.mem_append_left _ (ih hmem)
    · obtain rfl := List.mem_singleton.mp hlast
      simp [edit, add]

/-- **A consistent draft**: the labels marked are those with a label statement, and each has one. -/
structure Consistent (d : Draft) : Prop where
  labels : ∀ l, l ∈ labelsOf d.stmts.toList ↔ d.isMarked l = true
  nodup : (labelsOf d.stmts.toList).Nodup

theorem Consistent.edit {d : Draft} (h : d.Consistent) {e : Edit} (he : AddsNoLabel e) :
    (d.edit e).Consistent := by
  -- Edits other than markings leave both the label statements and the marks alone.
  have hkeep : labelsOf (d.edit e).stmts.toList = labelsOf d.stmts.toList →
      (∀ l, (d.edit e).isMarked l = true ↔ d.isMarked l = true) → (d.edit e).Consistent :=
    fun hlabels hmarked => ⟨fun l => by rw [hlabels, hmarked, h.labels], hlabels ▸ h.nodup⟩
  cases e with
  | newLabel => exact hkeep rfl fun l => iff_of_eq (congrArg (· = true) (d.isMarked_newLabel l))
  | declareLocal w => exact hkeep rfl fun _ => Iff.rfl
  | add s =>
    have hstmts : (d.edit (.add s)).stmts.toList = d.stmts.toList ++ [s] := Array.toList_push
    refine hkeep ?_ fun _ => Iff.rfl
    rw [hstmts, labelsOf_append, labelsOf_cons, he s rfl]
    exact List.append_nil _
  | mark l =>
    have hmarked := d.isMarked_edit (.mark l)
    rcases d.edit_mark l with ⟨hfalse, hedit⟩ | ⟨-, hedit⟩
    · have hstmts : (d.edit (.mark l)).stmts.toList = d.stmts.toList ++ [.label l] := by
        rw [hedit]
        exact Array.toList_push
      have hlabels : labelsOf (d.edit (.mark l)).stmts.toList = labelsOf d.stmts.toList ++ [l] := by
        rw [hstmts, labelsOf_append]
        rfl
      have hok : ∃ d', d.mark l = .ok d' := ⟨_, mark_ok_iff.mpr ⟨hfalse, rfl⟩⟩
      have hnew : l ∉ labelsOf d.stmts.toList := by
        rw [h.labels, isMarked_iff, hfalse]
        nofun
      refine ⟨fun k => ?_, ?_⟩
      · rw [hlabels, hmarked, List.mem_append, List.mem_singleton, h.labels, Edit.mark.injEq]
        refine or_congr_right ⟨fun hk => ⟨hk.symm, hk ▸ hok⟩, fun hk => hk.1.symm⟩
      · rw [hlabels]
        exact h.nodup.append (List.nodup_singleton l) (by simpa using hnew)
    · rwa [hedit]

/-- **A session that adds no label statements by hand ends in a consistent draft.** -/
theorem consistent_ofEdits {edits : List Edit} (h : ∀ e ∈ edits, AddsNoLabel e) :
    (ofEdits edits).Consistent := by
  induction edits using List.reverseRecOn with
  | nil => exact ⟨by simp [ofEdits, labelsOf, isMarked], List.nodup_nil⟩
  | append_singleton edits e ih =>
    rw [ofEdits_concat]
    exact (ih fun x hx => h x (by simp [hx])).edit (h e (by simp))

/-! ## Finishing -/

theorem isMarked_getElem {d : Draft} {l : Label} (hl : l < d.marked.toList.length) :
    d.marked.toList[l] = d.isMarked l := by
  rw [Array.length_toList] at hl
  rw [isMarked, Array.getD_eq_getD_getElem?, Array.getElem?_eq_getElem hl]
  rfl

/-- **A body is finished** if all labels are marked. It is the normal form of the statements. -/
theorem finish_ok_iff {d : Draft} {b : Body} : d.finish = .ok b ↔
    (∀ l < d.labelCount, d.isMarked l = true) ∧
      b = Body.normalize d.stmts.toList d.locals.toList := by
  unfold finish
  cases hfind : d.marked.toList.findIdx? (· = false) with
  | some l =>
    obtain ⟨hl, hfalse, -⟩ := List.findIdx?_eq_some_iff_getElem.mp hfind
    rw [isMarked_getElem hl] at hfalse
    refine ⟨nofun, fun h => ?_⟩
    have htrue := h.1 l (by simpa [labelCount] using hl)
    rw [htrue] at hfalse
    cases hfalse
  | none =>
    have hall : ∀ l < d.labelCount, d.isMarked l = true := by
      intro l hl
      have hl' : l < d.marked.toList.length := by simpa [labelCount] using hl
      have hx := List.findIdx?_eq_none_iff.mp hfind _ (List.getElem_mem hl')
      rw [isMarked_getElem hl'] at hx
      simpa using hx
    exact ⟨fun h => ⟨hall, (Except.ok.inj h).symm⟩, fun h => congrArg Except.ok h.2.symm⟩

/-- In a session that ends in a body, all labels that were handed out were marked. -/
theorem marks_of_finish {edits : List Edit} {b : Body} (hb : (ofEdits edits).finish = .ok b)
    {l : Label} (hl : HandsOut edits l) : Marks edits l :=
  marks_iff.mpr ((finish_ok_iff.mp hb).1 l (handsOut_iff.mp hl))

/-- **Otherwise the lowest label without a mark is reported.** -/
theorem finish_error_iff {d : Draft} {f : Fault} : d.finish = .error f ↔
    ∃ l < d.labelCount, f = .unmarkedLabel l ∧ d.isMarked l = false ∧
      ∀ k < l, d.isMarked k = true := by
  unfold finish
  cases hfind : d.marked.toList.findIdx? (· = false) with
  | some l =>
    obtain ⟨hl, hfalse, hbelow⟩ := List.findIdx?_eq_some_iff_getElem.mp hfind
    have hl' : l < d.labelCount := by simpa [labelCount] using hl
    rw [isMarked_getElem hl] at hfalse
    have hbelow' : ∀ k < l, d.isMarked k = true := by
      intro k hk
      have hx := hbelow k hk
      rw [isMarked_getElem (Nat.lt_trans hk hl)] at hx
      simpa using hx
    constructor
    · rintro ⟨⟩
      exact ⟨l, hl', rfl, by simpa using hfalse, hbelow'⟩
    · rintro ⟨k, hk, rfl, hkfalse, hkbelow⟩
      -- Both are the lowest one.
      rcases Nat.lt_trichotomy k l with hlt | rfl | hlt
      · rw [hbelow' k hlt] at hkfalse
        cases hkfalse
      · rfl
      · rw [hkbelow l hlt] at hfalse
        cases hfalse
  | none =>
    refine ⟨nofun, ?_⟩
    rintro ⟨l, hl, -, hfalse, -⟩
    have hok : d.finish = .ok (Body.normalize d.stmts.toList d.locals.toList) := by
      unfold finish
      rw [hfind]
    rw [(finish_ok_iff.mp hok).1 l hl] at hfalse
    cases hfalse

end Draft

end StoryVM
