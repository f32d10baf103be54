import Mathlib.Order.Bounds.Basic
import StoryVM.Proofs.Blocks
import StoryVM.Proofs.Drafting
import StoryVM.Proofs.Idempotence

/-! # Bodies that come out of a drafting session

What can be relied on in a body that was finished at the end of a session.

* `Body.WellFormed`: the body starts with a label, its labels are numbered in statement order, jumps
  lead to those, every label but the first is there for a reason, and the body has a graph and a
  program. If the session adds no labels by hand, guards jumps and returns only, and jumps only to
  labels that it was handed out, then a body is finished exactly if all these labels are marked, and
  it is well formed (`finish_wellFormed`).
* `Finishing`: how the statements of a draft become those of its body. A jump to a label that was
  handed out leads to the block that was opened where the label was marked
  (`finish_keeps_jumps`).
* A jump to a label that was never handed out goes unnoticed if labels of the finished body have its
  number, and then leads to one of those (`jump_redirected`). -/

namespace StoryVM

namespace Stmt

theorem target?_relabel (f : Label → Label) (s : Stmt) :
    (s.relabel f).target? = s.target?.map f := by
  cases s with
  | branch cond guarded => cases guarded <;> rfl
  | _ => rfl

end Stmt

namespace Body

/-! ## Labels that are needed -/

/-- The statement of the label directly follows a branch. -/
def FollowsBranch (stmts : List Stmt) (l : Label) : Prop :=
  ∃ cond guarded, [.branch cond guarded, .label l] <:+: stmts

theorem mem_neededLabels_cons {s : Stmt} {rest : List Stmt} {l : Label} :
    l ∈ neededLabels (s :: rest) ↔ s.target? = some l ∨
      (∃ cond guarded, s = .branch cond guarded ∧ leadingLabel? rest = some l) ∨
        l ∈ neededLabels rest := by
  cases s with
  | jump k => simp [neededLabels, Stmt.target?, eq_comm]
  | branch cond guarded =>
    cases guarded <;> simp [neededLabels, Stmt.target?, Stmt.jump?, eq_comm]
  | _ => simp [neededLabels, Stmt.target?]

theorem followsBranch_cons {s : Stmt} {rest : List Stmt} {l : Label} :
    FollowsBranch (s :: rest) l ↔
      (∃ cond guarded, s = .branch cond guarded ∧ leadingLabel? rest = some l) ∨
        FollowsBranch rest l := by
  have hfirst : [.label l] <+: rest ↔ leadingLabel? rest = some l := by
    refine ⟨?_, fun h => ?_⟩
    · rintro ⟨more, rfl⟩
      rfl
    · obtain ⟨more, rfl⟩ := exists_cons_of_leadingLabel? h
      exact ⟨more, rfl⟩
  simp only [FollowsBranch, List.infix_cons_iff, List.cons_prefix_cons, hfirst, exists_or, eq_comm]

/-- **The labels that stay** are those jumped to and those that directly follow a branch. -/
theorem mem_neededLabels_iff {stmts : List Stmt} {l : Label} :
    l ∈ neededLabels stmts ↔ (∃ s ∈ stmts, s.target? = some l) ∨ FollowsBranch stmts l := by
  induction stmts with
  | nil => simp [neededLabels, FollowsBranch]
  | cons s rest ih =>
    rw [mem_neededLabels_cons, followsBranch_cons, ih, List.exists_mem_cons_iff, or_assoc]
    exact or_congr_right or_left_comm

/-! ## Well-formed bodies -/

/-- **A well-formed body.** -/
structure WellFormed (b : Body) : Prop where
  /-- The first statement is a label. -/
  head : ∃ l rest, b.stmts = .label l :: rest
  /-- The labels are numbered in statement order. -/
  labels : labelsOf b.stmts = List.range b.labelCount
  /-- Jumps, guarded or not, lead to labels of the body. -/
  targets : ∀ s ∈ b.stmts, ∀ t, s.target? = some t → t < b.labelCount
  /-- Each label but the first is jumped to or directly follows a branch. -/
  needed : ∀ l ∈ labelsOf b.stmts, l ≠ 0 →
    (∃ s ∈ b.stmts, s.target? = some l) ∨ FollowsBranch b.stmts l
  /-- The body has a graph and a program. -/
  compiles : ∃ g p, Graph.ofBody b = .ok g ∧ Program.ofBody b g = .ok p

theorem Labelled.wellFormed {stmts : List Stmt} (h : Labelled stmts) (locals : List Local) :
    (normalize stmts locals).WellFormed := by
  have hnormal := normal_normalize h locals
  obtain ⟨l, rest, hstmts, hrest, -⟩ := (settled_normalize stmts locals).head
  obtain ⟨g, p, hg, hp, -⟩ := Program.ofBody_normal hnormal
  refine ⟨⟨l, rest, hstmts⟩, hnormal.labels, fun s hs t ht => ?_, fun k hk hne => ?_,
    g, p, hg, hp⟩
  · exact hnormal.named s hs t (Stmt.mem_names_of_target? ht)
  · -- The first label is label 0, so this one stands behind it.
    obtain ⟨rest', hstmts'⟩ := hnormal.head
    rw [hstmts] at hstmts'
    obtain ⟨hl, -⟩ := List.cons.inj hstmts'
    have hmem : k ∈ labelsOf rest := by
      rw [hstmts, hl, labelsOf_cons] at hk
      exact (List.mem_append.mp hk).resolve_left fun h0 => hne (List.mem_singleton.mp h0)
    rw [hstmts]
    exact mem_neededLabels_iff.mp (mem_neededLabels_cons.mpr (Or.inr (Or.inr (hrest k hmem))))

end Body

namespace Draft

open Body

/-! ## Sessions -/

/-- **A draft with all labels marked is well labelled**, if the statements added by hand are no
labels, guard jumps and returns, and jump to labels that were handed out. -/
theorem labelled_ofEdits {edits : List Edit}
    (hadd : ∀ s, .add s ∈ edits → s.label? = none ∧ s.GuardOk ∧
      ∀ l, s.target? = some l → HandsOut edits l)
    (hmarked : ∀ l < (ofEdits edits).labelCount, (ofEdits edits).isMarked l = true) :
    Labelled (ofEdits edits).stmts.toList := by
  have hconsistent : (ofEdits edits).Consistent := by
    refine consistent_ofEdits ?_
    rintro _ he s rfl
    exact (hadd s he).1
  refine ⟨hconsistent.nodup, fun s hs l hl => ?_, fun s hs => ?_⟩
  · rcases mem_stmts hs with hs' | ⟨k, rfl⟩
    · obtain ⟨hlabel, hguard, htarget⟩ := hadd s hs'
      have hout := htarget l (Stmt.target?_of_mem_names hlabel hguard hl)
      rw [hconsistent.labels]
      exact hmarked l (handsOut_iff.mp hout)
    · obtain rfl := List.mem_singleton.mp hl
      exact mem_labelsOf.mpr hs
  · rcases mem_stmts hs with hs' | ⟨k, rfl⟩
    · exact (hadd s hs').2.1
    · rintro _ _ ⟨⟩

/-- **Sessions yield well-formed bodies.** Let a session add statements by hand that are no labels,
guard jumps and returns only, and jump to labels that it was handed out. Then a body is finished
exactly if every label handed out was marked, and otherwise the lowest that was not is reported. The
body is well formed, and its locals are those declared, in order. -/
theorem finish_wellFormed {edits : List Edit}
    (hadd : ∀ s, .add s ∈ edits → s.label? = none ∧ s.GuardOk ∧
      ∀ l, s.target? = some l → HandsOut edits l) :
    ((∃ b, (ofEdits edits).finish = .ok b) ↔ ∀ l, HandsOut edits l → Marks edits l) ∧
      (∀ f, (ofEdits edits).finish = .error f ↔
        ∃ l, f = .unmarkedLabel l ∧ IsLeast {k | HandsOut edits k ∧ ¬ Marks edits k} l) ∧
      ∀ b, (ofEdits edits).finish = .ok b →
        b.WellFormed ∧ b.locals = (edits.filterMap Edit.width?).mapIdx Local.mk := by
  refine ⟨?_, fun f => ?_, fun b hb => ?_⟩
  · simp only [finish_ok_iff, handsOut_iff, marks_iff]
    exact ⟨fun ⟨_, hall, _⟩ => hall, fun hall => ⟨_, hall, rfl⟩⟩
  · simp only [finish_error_iff, handsOut_iff, marks_iff, Bool.not_eq_true]
    constructor
    · rintro ⟨l, hl, rfl, hfalse, hbelow⟩
      refine ⟨l, rfl, ⟨hl, hfalse⟩, fun k hk => Nat.not_lt.mp fun hlt => ?_⟩
      cases (hbelow k hlt).symm.trans hk.2
    · rintro ⟨l, rfl, ⟨hl, hfalse⟩, hleast⟩
      refine ⟨l, hl, rfl, hfalse, fun k hk => ?_⟩
      cases hmarked : (ofEdits edits).isMarked k with
      | true => rfl
      | false => exact absurd (hleast ⟨Nat.lt_trans hk hl, hmarked⟩) (Nat.not_le.mpr hk)
  · obtain ⟨hmarked, rfl⟩ := finish_ok_iff.mp hb
    exact ⟨(labelled_ofEdits hadd hmarked).wellFormed _, locals_ofEdits edits⟩

/-- A session with a branch over a statement, a second marking that fails, and locals declared on the
way. -/
def branching : List Edit :=
  [.newLabel, .declareLocal .byte, .mark 0, .newLabel, .add (.branch .pop (.jump 1)), .mark 0,
    .add (.push (.const 1)), .declareLocal .dword, .mark 1, .add (.jump 0)]

theorem finish_wellFormed_branching :
    (∀ s, .add s ∈ branching → s.label? = none ∧ s.GuardOk ∧
        ∀ l, s.target? = some l → HandsOut branching l) ∧
      ∃ b, (ofEdits branching).finish = .ok b ∧ b.WellFormed ∧
        b.locals = [⟨0, .byte⟩, ⟨1, .dword⟩] := by
  have hlabels : ∀ l < 2, HandsOut branching l := by
    intro l hl
    exact handsOut_iff.mpr hl
  have hadd : ∀ s, .add s ∈ branching → s.label? = none ∧ s.GuardOk ∧
      ∀ l, s.target? = some l → HandsOut branching l := by
    intro s hs
    obtain rfl | rfl | rfl : s = .branch .pop (.jump 1) ∨ s = .push (.const 1) ∨ s = .jump 0 := by
      simpa [branching] using hs
    · refine ⟨rfl, ?_, ?_⟩
      · rintro _ _ ⟨⟩
        exact Or.inl ⟨1, rfl⟩
      · rintro _ ⟨⟩
        exact hlabels 1 (by decide)
    · exact ⟨rfl, by rintro _ _ ⟨⟩, nofun⟩
    · refine ⟨rfl, by rintro _ _ ⟨⟩, ?_⟩
      rintro _ ⟨⟩
      exact hlabels 0 (by decide)
  obtain ⟨hexists, -, hwell⟩ := finish_wellFormed hadd
  have hmarks : ∀ l, HandsOut branching l → Marks branching l := by
    intro l hl
    have hlt : l < 2 := handsOut_iff.mp hl
    obtain rfl | rfl := Nat.le_one_iff_eq_zero_or_eq_one.mp (Nat.le_of_lt_succ hlt)
    · exact marks_iff.mpr rfl
    · exact marks_iff.mpr rfl
  obtain ⟨b, hb⟩ := hexists.mpr hmarks
  exact ⟨hadd, b, hb, hwell b hb⟩

end Draft

/-! ## Where jumps lead -/

theorem Graph.first_span {b : Body} {g : Graph} (hb : b.Normal) (hg : ofBody b = .ok g)
    {pre post : List Stmt} {t : Label} (hsplit : b.stmts = pre ++ .label t :: post) :
    (g.span (.label t)).first = pre.length := by
  have hlabels : labelsOf b.stmts = labelsOf pre ++ t :: labelsOf post := by
    rw [hsplit, labelsOf_append]
    rfl
  have ht : t < b.labelCount := by
    rw [← List.mem_range, ← hb.labels, hlabels]
    simp
  have hnew : Stmt.label t ∉ pre := by
    rw [← mem_labelsOf]
    intro hmem
    have hnodup : (labelsOf b.stmts).Nodup := hb.labels ▸ List.nodup_range
    rw [hlabels] at hnodup
    exact (List.nodup_append.mp hnodup).2.2 t hmem t List.mem_cons_self rfl
  rw [span_label hb hg ht, hsplit, List.idxOf_append_of_notMem hnew, List.idxOf_cons_self,
    Nat.add_zero]

namespace Body

/-- **How statements become a body**: what is put in front, which labels stay, and the new number of
each label. -/
structure Finishing where
  front : List Stmt
  stays : List Label
  number : Label → Label

namespace Finishing

/-- What becomes of statements. -/
def image (w : Finishing) (stmts : List Stmt) : List Stmt :=
  w.front ++ (prune w.stays stmts).map (Stmt.relabel w.number)

variable {w : Finishing} {stmts : List Stmt} {s : Stmt} {l : Label} {i : Nat}

/-- A label that stays stands behind what becomes of the statements before it. -/
theorem image_label (hl : l ∈ w.stays) (pre post : List Stmt) : ∃ rest,
    w.image (pre ++ .label l :: post) = w.image pre ++ .label (w.number l) :: rest := by
  have hkeep : prune w.stays (pre ++ .label l :: post) =
      prune w.stays pre ++ .label l :: prune w.stays post := by
    rw [prune, List.filter_append, List.filter_cons_of_pos (by simpa using hl)]
    rfl
  refine ⟨(prune w.stays post).map (Stmt.relabel w.number), ?_⟩
  rw [image, hkeep, List.map_append, List.map_cons, image, List.append_assoc]
  rfl

/-- A statement behind the front stems from one of the list, and what stands before it becomes of what
stood before that. -/
theorem exists_of_image (h : (w.image stmts)[i]? = some s) (hi : w.front.length ≤ i) :
    ∃ pre t post, stmts = pre ++ t :: post ∧ s = t.relabel w.number ∧
      w.image pre = (w.image stmts).take i := by
  obtain ⟨j, rfl⟩ := Nat.exists_eq_add_of_le hi
  rw [image, List.getElem?_append_right hi, Nat.add_sub_cancel_left, List.getElem?_map] at h
  obtain ⟨t, ht, rfl⟩ := Option.map_eq_some_iff.mp h
  obtain ⟨hj, hget⟩ := List.getElem?_eq_some_iff.mp ht
  have hsplit : prune w.stays stmts =
      (prune w.stays stmts).take j ++ t :: (prune w.stays stmts).drop (j + 1) := by
    rw [← hget, List.getElem_cons_drop, List.take_append_drop]
  obtain ⟨a, c, hstmts, ha, hc⟩ := List.filter_eq_append_iff.mp hsplit
  obtain ⟨m, post, rfl, hm, -, -⟩ := List.filter_eq_cons_iff.mp hc
  have hpre : prune w.stays (a ++ m) = (prune w.stays stmts).take j := by
    rw [← ha, prune, List.filter_append, List.filter_eq_nil_iff.mpr hm, List.append_nil]
  refine ⟨a ++ m, t, post, hstmts.trans (List.append_assoc _ _ _).symm, rfl, ?_⟩
  rw [image, image, hpre, List.take_append, List.take_of_length_le hi, Nat.add_sub_cancel_left,
    List.map_take]

/-- How statements are brought into normal form. -/
def ofStmts (stmts : List Stmt) : Finishing :=
  ⟨lead stmts, neededLabels stmts, (numbering (lead stmts).length (kept stmts)).1.apply⟩

theorem mem_front_ofStmts (h : s ∈ (ofStmts stmts).front) : s = .label 0 := by
  have hlead : s ∈ lead stmts := h
  unfold lead at hlead
  split at hlead
  · cases hlead
  · exact List.mem_singleton.mp hlead

/-- A label without a statement keeps its number. -/
theorem number_ofStmts (h : l ∉ labelsOf stmts) : (ofStmts stmts).number l = l := by
  refine (numbering_apply (lead stmts).length (kept stmts)).2.2 l fun hmem => h ?_
  rw [kept, labelsOf_prune] at hmem
  exact (List.mem_filter.mp hmem).1

/-- The statements of the draft have become those before place `i` of the body. -/
def EndsAt (w : Finishing) (b : Body) (i : Nat) (d : Draft) : Prop :=
  w.image d.stmts.toList = b.stmts.take i

end Finishing

end Body

namespace Draft

open Body

section Jumps

variable {edits : List Edit} {b : Body} {g : Graph}

/-- How the statements of a session become those of its body. -/
def finishing (edits : List Edit) : Finishing := .ofStmts (ofEdits edits).stmts.toList

theorem finish_stmts (hb : (ofEdits edits).finish = .ok b) :
    b.stmts = (finishing edits).image (ofEdits edits).stmts.toList := by
  obtain ⟨-, rfl⟩ := finish_ok_iff.mp hb
  rfl

theorem finish_normal (h : ∀ e ∈ edits, AddsNoLabel e) (hb : (ofEdits edits).finish = .ok b)
    (hg : Graph.ofBody b = .ok g) : b.Normal := by
  obtain ⟨-, rfl⟩ := finish_ok_iff.mp hb
  obtain ⟨l, rest, hhead, -⟩ := (settled_normalize _ _).head
  exact normal_of_numbered (labelsOf_normalize (consistent_ofEdits h).nodup _) ⟨l, rest, hhead⟩
    (Graph.guards_of_ofBody hg)

/-- A label that was never marked keeps its number. -/
theorem number_of_not_marks (h : ∀ e ∈ edits, AddsNoLabel e) {l : Label} (hl : ¬ Marks edits l) :
    (finishing edits).number l = l := by
  refine Finishing.number_ofStmts ?_
  rwa [(consistent_ofEdits h).labels, ← marks_iff]

/-- **A jump of a finished body was added in the session**, when the statements so far were those that
now stand before it. -/
theorem exists_added_jump (hb : (ofEdits edits).finish = .ok b) {i : Nat} {s : Stmt} {t : Label}
    (hs : b.stmts[i]? = some s) (ht : s.target? = some t) :
    ∃ added l, Made edits (.add added) ((finishing edits).EndsAt b i) ∧
      s = added.relabel (finishing edits).number ∧ added.target? = some l ∧
        t = (finishing edits).number l := by
  have hstmts := finish_stmts hb
  rw [hstmts] at hs
  -- What is put in front jumps nowhere.
  have hi : (finishing edits).front.length ≤ i := by
    by_contra hlt
    rw [Finishing.image, List.getElem?_append_left (Nat.not_le.mp hlt)] at hs
    obtain rfl := Finishing.mem_front_ofStmts (List.mem_of_getElem? hs)
    cases ht
  obtain ⟨pre, added, post, hsplit, rfl, htake⟩ := Finishing.exists_of_image hs hi
  rw [Stmt.target?_relabel] at ht
  obtain ⟨l, hl, rfl⟩ := Option.map_eq_some_iff.mp ht
  refine ⟨added, l, ?_, rfl, hl, rfl⟩
  rcases stems_of_stmts hsplit with hadd | ⟨k, rfl, -⟩
  · refine hadd.imp ?_
    rintro d rfl
    rw [Finishing.EndsAt, htake, hstmts]
  · cases hl

/-- **A label that was marked and is jumped to opens a block** at the place where it was marked. -/
theorem exists_marked_block (h : ∀ e ∈ edits, AddsNoLabel e) (hb : (ofEdits edits).finish = .ok b)
    (hg : Graph.ofBody b = .ok g) {added : Stmt} {l t : Label} (hadd : .add added ∈ edits)
    (hl : added.target? = some l) (hmark : Marks edits l) (ht : t = (finishing edits).number l) :
    b.stmts[(g.span (.label t)).first]? = some (.label t) ∧
      Made edits (.mark l) fun d =>
        (∃ d', d.mark l = .ok d') ∧ (finishing edits).EndsAt b (g.span (.label t)).first d := by
  have hmem : .label l ∈ (ofEdits edits).stmts.toList := by
    rw [← mem_labelsOf, (consistent_ofEdits h).labels]
    exact marks_iff.mp hmark
  obtain ⟨pre, post, hsplit⟩ := List.append_of_mem hmem
  have hstays : l ∈ (finishing edits).stays :=
    mem_neededLabels_iff.mpr (Or.inl ⟨added, mem_stmts_of_add hadd, hl⟩)
  obtain ⟨rest, himage⟩ := Finishing.image_label hstays pre post
  have hstmts : b.stmts = (finishing edits).image pre ++ .label t :: rest := by
    rw [finish_stmts hb, hsplit, himage, ht]
  rw [Graph.first_span (finish_normal h hb hg) hg hstmts]
  refine ⟨?_, ?_⟩
  · rw [hstmts, List.getElem?_append_right (Nat.le_refl _), Nat.sub_self]
    rfl
  · rcases stems_of_stmts hsplit with hhand | ⟨k, hk, hmade⟩
    · cases h _ hhand.mem _ rfl
    · cases hk
      refine hmade.imp ?_
      rintro d ⟨hok, rfl⟩
      refine ⟨hok, ?_⟩
      rw [Finishing.EndsAt, hstmts, List.take_left]

/-- **A jump to a label that was never marked** keeps its number in the finished body. -/
theorem exists_jump_of_not_marks (h : ∀ e ∈ edits, AddsNoLabel e)
    (hb : (ofEdits edits).finish = .ok b) {added : Stmt} {l : Label} (hadd : .add added ∈ edits)
    (hl : added.target? = some l) (hmark : ¬ Marks edits l) :
    ∃ s ∈ b.stmts, s.target? = some l := by
  refine ⟨added.relabel (finishing edits).number, ?_, ?_⟩
  · rw [finish_stmts hb]
    refine List.mem_append_right _ (List.mem_map_of_mem (mem_prune.mpr ⟨mem_stmts_of_add hadd, ?_⟩))
    rintro k rfl
    cases hl
  · rw [Stmt.target?_relabel, hl, Option.map_some, number_of_not_marks h hmark]

end Jumps

/-- **Jumps to labels that were handed out keep their place.** Let a session add no labels by hand. If
it ends in a body with a graph, then every jump of the body stems from one that was added, to a label
`l`. If `l` was handed out, then the jump leads to the block that was opened where `l` was marked.
Otherwise the jump still has the number `l`, whatever label of the body this is now.

A jump to a label that was never marked ends in an error, unless the label was never handed out and
the finished body has a label of its number. -/
theorem finish_keeps_jumps {edits : List Edit} (h : ∀ e ∈ edits, AddsNoLabel e) :
    (∀ b g, (ofEdits edits).finish = .ok b → Graph.ofBody b = .ok g →
      ∃ w : Finishing, (∀ s ∈ w.front, s = .label 0) ∧
        b.stmts = w.image (ofEdits edits).stmts.toList ∧
        ∀ i s t, b.stmts[i]? = some s → s.target? = some t →
          ∃ added l, Made edits (.add added) (w.EndsAt b i) ∧ s = added.relabel w.number ∧
            added.target? = some l ∧ t = w.number l ∧
            (HandsOut edits l → b.stmts[(g.span (.label t)).first]? = some (.label t) ∧
              Made edits (.mark l) fun d =>
                (∃ d', d.mark l = .ok d') ∧ w.EndsAt b (g.span (.label t)).first d) ∧
            (¬ HandsOut edits l → t = l)) ∧
      ∀ s l, .add s ∈ edits → s.target? = some l → ¬ Marks edits l →
        (HandsOut edits l → ∃ k, (ofEdits edits).finish = .error (.unmarkedLabel k)) ∧
          (¬ HandsOut edits l → ∀ b, (ofEdits edits).finish = .ok b → b.labelCount ≤ l →
            ∃ f, Graph.ofBody b = .error f) := by
  refine ⟨fun b g hb hg => ?_, fun s l hs hl hmark => ⟨fun hout => ?_, fun hout b hb hcount => ?_⟩⟩
  · refine ⟨finishing edits, fun s => Finishing.mem_front_ofStmts,
      finish_stmts hb, fun i s t hs ht => ?_⟩
    obtain ⟨added, l, hmade, hrelabel, hl, hnumber⟩ := exists_added_jump hb hs ht
    refine ⟨added, l, hmade, hrelabel, hl, hnumber, fun hout => ?_, fun hout => ?_⟩
    · exact exists_marked_block h hb hg hmade.mem hl (marks_of_finish hb hout) hnumber
    · rw [hnumber, number_of_not_marks h (mt handsOut_of_marks hout)]
  · cases hfinish : (ofEdits edits).finish with
    | ok b => exact absurd (marks_of_finish hfinish hout) hmark
    | error f =>
      obtain ⟨k, -, rfl, -⟩ := finish_error_iff.mp hfinish
      exact ⟨k, rfl⟩
  · obtain ⟨jump, hjump, htarget⟩ := exists_jump_of_not_marks h hb hs hl hmark
    cases hg : Graph.ofBody b with
    | error f => exact ⟨f, rfl⟩
    | ok g =>
      have hlt := (Graph.guards_of_ofBody hg jump hjump).2 l htarget
      exact absurd hlt (Nat.not_lt.mpr hcount)

/-- A session whose body gets a label in front, so that the label it marks has another number there. -/
def repeating : List Edit :=
  [.newLabel, .add (.push (.const 5)), .mark 0, .add (.branch .pop (.jump 0))]

/-- The body of that session. -/
def repeated : Body where
  stmts := [.label 0, .push (.const 5), .label 1, .branch .pop (.jump 1)]
  labelCount := 2
  locals := []

theorem finish_keeps_jumps_repeating :
    (∀ e ∈ repeating, AddsNoLabel e) ∧ (ofEdits repeating).finish = .ok repeated ∧
      ∃ g w, Graph.ofBody repeated = .ok g ∧ Finishing.number w 0 = 1 ∧
        Made repeating (.mark 0) fun d =>
          (∃ d', d.mark 0 = .ok d') ∧ w.EndsAt repeated (g.span (.label 1)).first d := by
  have hlabels : ∀ e ∈ repeating, AddsNoLabel e := by
    rintro e he s rfl
    obtain rfl | rfl : s = .push (.const 5) ∨ s = .branch .pop (.jump 0) := by
      simpa [repeating] using he
    · rfl
    · rfl
  have hfinish : (ofEdits repeating).finish = .ok repeated := by decide +kernel
  obtain ⟨g, hg⟩ : ∃ g, Graph.ofBody repeated = .ok g := ⟨_, rfl⟩
  obtain ⟨w, -, -, hjumps⟩ := (finish_keeps_jumps hlabels).1 repeated g hfinish hg
  obtain ⟨added, l, hadd, -, hl, hnumber, hkept, -⟩ :=
    hjumps 3 (.branch .pop (.jump 1)) 1 rfl rfl
  -- Only one statement with a target was added.
  obtain rfl | rfl : added = .push (.const 5) ∨ added = .branch .pop (.jump 0) := by
    simpa [repeating] using hadd.mem
  · cases hl
  · cases hl
    exact ⟨hlabels, hfinish, g, w, hg, hnumber.symm, (hkept (handsOut_iff.mpr (by decide))).2⟩

/-- The session goes on with a jump to a label that was never handed out. -/
def straying : List Edit := repeating ++ [.add (.jump 1)]

/-- **A jump can be redirected.** Label 1 is neither handed out nor marked. Still the session ends in a
body with a graph, in which the jump leads to the block that was opened where label 0 was marked. -/
theorem jump_redirected :
    (∀ e ∈ straying, AddsNoLabel e) ∧ .add (.jump 1) ∈ straying ∧
      ¬ HandsOut straying 1 ∧ ¬ Marks straying 1 ∧
      ∃ b g, (ofEdits straying).finish = .ok b ∧ Graph.ofBody b = .ok g ∧
        b.stmts = repeated.stmts ++ [.jump 1] ∧ (g.span (.label 1)).first = 2 ∧
        Made straying (.mark 0) fun d =>
          (∃ d', d.mark 0 = .ok d') ∧ d.stmts = #[.push (.const 5)] := by
  refine ⟨?_, by decide, ?_, ?_, ⟨repeated.stmts ++ [.jump 1], 2, []⟩, ?_⟩
  · rintro e he s rfl
    obtain rfl | rfl | rfl :
        s = .push (.const 5) ∨ s = .branch .pop (.jump 0) ∨ s = .jump 1 := by
      simpa [straying, repeating] using he
    · rfl
    · rfl
    · rfl
  · rw [handsOut_iff]
    decide
  · rw [marks_iff]
    decide
  · obtain ⟨g, hg, hfirst⟩ : ∃ g, Graph.ofBody ⟨repeated.stmts ++ [.jump 1], 2, []⟩ = .ok g ∧
        (g.span (.label 1)).first = 2 := ⟨_, rfl, rfl⟩
    refine ⟨g, by decide +kernel, hg, rfl, hfirst, ?_⟩
    exact ⟨[.newLabel, .add (.push (.const 5))], _, rfl, ⟨_, rfl⟩, rfl⟩

end Draft

end StoryVM
