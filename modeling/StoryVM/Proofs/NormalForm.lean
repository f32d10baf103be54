import Mathlib.Data.List.Nodup
import Mathlib.Data.List.Range
import Mathlib.Data.List.Map2
import Mathlib.Tactic.Common
import StoryVM.Ir.Body

/-! # The normal form of a well-labelled list of statements

A list of statements is *well labelled* (`Labelled`) if no label has two statements, every label
that is named has one, and branches guard jumps and returns only. For such a list the normal form
is described without its renaming map: a label becomes its position among the labels that are kept
(`normalize_eq`).

* The number of a label is its last place among the labels with a statement, whether or not it has
  several (`numbering_apply`).
* The labels of the normal form are numbered in statement order and start the body
  (`labelsOf_normalize`, `normalize_head`), and only those are named (`names_lt_of_mem_normalize`):
  it is `Normal`, and so it is well labelled again (`Normal.labelled`).
* The normal form does not depend on what the labels are called (`normalize_relabel`). -/

namespace StoryVM

/-! ## The labels of statements -/

/-- The labels that have a statement, in statement order. -/
def labelsOf (stmts : List Stmt) : List Label := stmts.filterMap Stmt.label?

namespace Stmt

/-- The labels that a statement names, in a guarded statement too. -/
def names : Stmt → List Label
  | label l | jump l => [l]
  | branch _ guarded => guarded.names
  | _ => []

/-- The statement with other label numbers. -/
def relabel (f : Label → Label) (s : Stmt) : Stmt := Transform.stmt { label := f } s

/-- Whether the statement may be guarded by a branch. -/
def IsGuarded (s : Stmt) : Prop := (∃ l, s = jump l) ∨ ∃ e, s = ret e

/-- A branch guards a jump or a return. -/
def GuardOk (s : Stmt) : Prop := ∀ cond guarded, s = branch cond guarded → guarded.IsGuarded

theorem relabel_congr {f g : Label → Label} {s : Stmt} (h : ∀ l ∈ s.names, f l = g l) :
    s.relabel f = s.relabel g := by
  induction s with
  | label l | jump l => simp [relabel, Transform.stmt, h l (by simp [names])]
  | branch cond guarded ih =>
    have hg : guarded.relabel f = guarded.relabel g := ih h
    simp only [relabel] at hg
    simp [relabel, Transform.stmt, Transform.expr_of_node_id, hg]
  | _ => simp [relabel, Transform.stmt, Transform.expr_of_node_id]

theorem relabel_relabel (f g : Label → Label) (s : Stmt) :
    (s.relabel f).relabel g = s.relabel (g ∘ f) := by
  induction s <;> simp_all [relabel, Transform.stmt, Transform.expr_of_node_id]

theorem names_relabel (f : Label → Label) (s : Stmt) : (s.relabel f).names = s.names.map f := by
  induction s <;> simp_all [relabel, Transform.stmt, names]

theorem label?_relabel (f : Label → Label) (s : Stmt) :
    (s.relabel f).label? = s.label?.map f := by
  cases s <;> simp [relabel, Transform.stmt, label?]

theorem jump?_relabel (f : Label → Label) (s : Stmt) : (s.relabel f).jump? = s.jump?.map f := by
  cases s <;> simp [relabel, Transform.stmt, jump?]

theorem guardOk_relabel {f : Label → Label} {s : Stmt} (h : s.GuardOk) : (s.relabel f).GuardOk := by
  intro cond guarded hs
  cases s with
  | branch c g =>
    simp only [relabel, Transform.stmt, branch.injEq] at hs
    obtain ⟨-, rfl⟩ := hs
    rcases h c g rfl with ⟨l, rfl⟩ | ⟨e, rfl⟩
    · exact Or.inl ⟨f l, rfl⟩
    · exact Or.inr ⟨_, rfl⟩
  | _ => simp [relabel, Transform.stmt] at hs

theorem mem_names_of_label? {s : Stmt} {l : Label} (h : s.label? = some l) : s = label l := by
  cases s <;> simp_all [label?]

end Stmt

theorem mem_labelsOf {stmts : List Stmt} {l : Label} : l ∈ labelsOf stmts ↔ Stmt.label l ∈ stmts := by
  simp only [labelsOf, List.mem_filterMap]
  constructor
  · rintro ⟨s, hs, hl⟩
    rwa [← Stmt.mem_names_of_label? hl]
  · intro h
    exact ⟨_, h, rfl⟩

theorem labelsOf_cons (s : Stmt) (rest : List Stmt) :
    labelsOf (s :: rest) = s.label?.toList ++ labelsOf rest := by
  cases h : s.label? <;> simp [labelsOf, h]

theorem labelsOf_append (a b : List Stmt) : labelsOf (a ++ b) = labelsOf a ++ labelsOf b := by
  simp [labelsOf]

theorem labelsOf_map_relabel (f : Label → Label) (stmts : List Stmt) :
    labelsOf (stmts.map (Stmt.relabel f)) = (labelsOf stmts).map f := by
  induction stmts with
  | nil => rfl
  | cons s rest ih =>
    rw [List.map_cons, labelsOf_cons, labelsOf_cons, Stmt.label?_relabel, ih]
    cases s.label? <;> simp

namespace Body

/-- **A well-labelled list of statements**: a label has at most one statement, a label that is named
has one, and branches guard jumps and returns. -/
structure Labelled (stmts : List Stmt) : Prop where
  nodup : (labelsOf stmts).Nodup
  named : ∀ s ∈ stmts, ∀ l ∈ s.names, l ∈ labelsOf stmts
  guards : ∀ s ∈ stmts, s.GuardOk

/-! ## The labels that are kept -/

/-- The statements that are left when the labels that nothing needs are dropped. -/
def kept (stmts : List Stmt) : List Stmt := prune (neededLabels stmts) stmts

theorem mem_prune {needed : List Label} {stmts : List Stmt} {s : Stmt} :
    s ∈ prune needed stmts ↔ s ∈ stmts ∧ ∀ l, s = .label l → l ∈ needed := by
  cases s <;> simp [prune]

theorem labelsOf_prune (needed : List Label) (stmts : List Stmt) :
    labelsOf (prune needed stmts) = (labelsOf stmts).filter needed.contains := by
  induction stmts with
  | nil => rfl
  | cons s rest ih =>
    simp only [labelsOf, prune] at ih ⊢
    cases s with
    | label l =>
      by_cases hl : l ∈ needed
      · simp_all [Stmt.label?]
      · simp_all [Stmt.label?]
    | _ => simpa [List.filterMap_cons, Stmt.label?] using ih

/-- A label that is jumped to is kept. -/
theorem mem_neededLabels_of_jump {stmts : List Stmt} {s : Stmt} {l : Label} (hs : s ∈ stmts)
    (hg : s.GuardOk) (hl : l ∈ s.names) (hn : s ≠ .label l) : l ∈ neededLabels stmts := by
  induction stmts with
  | nil => simp at hs
  | cons t rest ih =>
    rcases List.mem_cons.mp hs with rfl | hs
    · cases s with
      | label l' =>
        simp only [Stmt.names, List.mem_singleton] at hl
        exact absurd (by rw [hl]) hn
      | jump l' => simp_all [Stmt.names, neededLabels]
      | branch cond guarded =>
        rcases hg cond guarded rfl with ⟨l', rfl⟩ | ⟨e, rfl⟩
        · simp_all [Stmt.names, neededLabels, Stmt.jump?]
        · simp [Stmt.names] at hl
      | _ => simp [Stmt.names] at hl
    · have := ih hs
      cases t <;> simp [neededLabels, this]

theorem Labelled.mem_kept {stmts : List Stmt} (h : Labelled stmts) {s : Stmt} {l : Label}
    (hs : s ∈ kept stmts) (hl : l ∈ s.names) : l ∈ labelsOf (kept stmts) := by
  obtain ⟨hs, hk⟩ := mem_prune.mp hs
  rw [kept, labelsOf_prune, List.mem_filter, List.contains_iff_mem]
  refine ⟨h.named s hs l hl, ?_⟩
  by_cases hn : s = .label l
  · exact hk l hn
  · exact mem_neededLabels_of_jump hs (h.guards s hs) hl hn

theorem nodup_kept {stmts : List Stmt} (h : (labelsOf stmts).Nodup) :
    (labelsOf (kept stmts)).Nodup := by
  rw [kept, labelsOf_prune]
  exact h.filter _

/-! ## The numbering -/

theorem numbering_append (first : Nat) (stmts : List Stmt) (s : Stmt) :
    numbering first (stmts ++ [s]) = numberStep (numbering first stmts) s := by
  simp [numbering]

theorem apply_insert (r : Renaming) (old new l : Label) :
    (r.insert old new).apply l = if old = l then new else r.apply l := by
  simp only [Renaming.apply, Renaming.insert, Std.TreeMap.get?_eq_getElem?,
    Std.TreeMap.getElem?_insert, compare_eq_iff_eq]
  split <;> simp

/-- **The last place** of a label in a list is `k`. -/
def LastAt (ls : List Label) (l : Label) (k : Nat) : Prop :=
  ls[k]? = some l ∧ ∀ j, k < j → ls[j]? ≠ some l

theorem LastAt.concat_self (ls : List Label) (l : Label) : LastAt (ls ++ [l]) l ls.length := by
  refine ⟨by simp, fun j hj => ?_⟩
  have hlen : (ls ++ [l]).length ≤ j := by
    rw [List.length_append, List.length_singleton]
    omega
  rw [List.getElem?_eq_none hlen]
  exact nofun

theorem LastAt.concat_iff {ls : List Label} {l l' : Label} {k : Nat} (hne : l' ≠ l) :
    LastAt (ls ++ [l']) l k ↔ LastAt ls l k := by
  have hget : ∀ j : Nat, (ls ++ [l'])[j]? = some l ↔ ls[j]? = some l := by
    intro j
    rcases Nat.lt_or_ge j ls.length with hj | hj
    · rw [List.getElem?_append_left hj]
    · rw [List.getElem?_append_right hj, List.getElem?_eq_none hj]
      refine ⟨fun h => ?_, nofun⟩
      exact absurd (List.mem_singleton.mp (List.mem_of_getElem? h)).symm hne
  simp only [LastAt, Ne, hget]

theorem LastAt.of_cons {ls : List Label} {l l' : Label} {k : Nat}
    (h : LastAt (l' :: ls) l (k + 1)) : LastAt ls l k :=
  ⟨h.1, fun j hj => h.2 (j + 1) (Nat.succ_lt_succ hj)⟩

theorem exists_lastAt {ls : List Label} {l : Label} (h : l ∈ ls) : ∃ k, LastAt ls l k := by
  induction ls using List.reverseRecOn with
  | nil => cases h
  | append_singleton ls l' ih =>
    by_cases hl : l' = l
    · subst hl
      exact ⟨ls.length, .concat_self ls l'⟩
    · have hmem : l ∈ ls := by simpa [Ne.symm hl] using h
      obtain ⟨k, hk⟩ := ih hmem
      exact ⟨k, (LastAt.concat_iff hl).mpr hk⟩

theorem LastAt.unique {ls : List Label} {l : Label} {k k' : Nat} (h : LastAt ls l k)
    (h' : LastAt ls l k') : k = k' := by
  rcases Nat.lt_trichotomy k k' with hlt | heq | hlt
  · exact absurd h'.1 (h.2 k' hlt)
  · exact heq
  · exact absurd h.1 (h'.2 k hlt)

theorem lastAt_idxOf {ls : List Label} {l : Label} (h : ls.Nodup) (hl : l ∈ ls) :
    LastAt ls l (ls.idxOf l) := by
  refine ⟨List.getElem?_idxOf hl, fun j hj hget => ?_⟩
  obtain ⟨hlt, hget⟩ := List.getElem?_eq_some_iff.mp hget
  have hidx : ls.idxOf l = j := hget ▸ h.idxOf_getElem j hlt
  exact Nat.ne_of_lt hj hidx

/-- **A label's number is its last place**, counted from `first`. A label without a statement keeps
its number. -/
theorem numbering_apply (first : Nat) (stmts : List Stmt) :
    (numbering first stmts).2 = first + (labelsOf stmts).length ∧
      (∀ l k, LastAt (labelsOf stmts) l k → (numbering first stmts).1.apply l = first + k) ∧
      ∀ l, l ∉ labelsOf stmts → (numbering first stmts).1.apply l = l := by
  induction stmts using List.reverseRecOn with
  | nil => simp [numbering, labelsOf, LastAt, Renaming.apply]
  | append_singleton stmts s ih =>
    obtain ⟨hcount, hlast, hnone⟩ := ih
    rw [numbering_append, labelsOf_append, labelsOf_cons]
    cases hs : s.label? with
    | none =>
      have hstep : numberStep (numbering first stmts) s = numbering first stmts := by
        cases s with
        | label l => cases hs
        | _ => rfl
      have hnil : (none : Option Label).toList ++ labelsOf [] = [] := rfl
      rw [hstep, hnil, List.append_nil]
      exact ⟨hcount, hlast, hnone⟩
    | some new =>
      obtain rfl := Stmt.mem_names_of_label? hs
      have hone : (some new).toList ++ labelsOf [] = [new] := rfl
      simp only [numberStep, hone, apply_insert, hcount, List.length_append, List.length_singleton,
        List.mem_append, List.mem_singleton, not_or]
      refine ⟨by omega, fun l k hk => ?_, fun l hl => ?_⟩
      · by_cases hl : new = l
        · subst hl
          rw [if_pos rfl, hk.unique (.concat_self _ new)]
        · rw [if_neg hl, hlast l k ((LastAt.concat_iff hl).mp hk)]
      · rw [if_neg (Ne.symm hl.2), hnone l hl.1]

/-- If no label has two statements, its number is its position among the labels. -/
theorem numbering_spec (first : Nat) (stmts : List Stmt) (h : (labelsOf stmts).Nodup) :
    (numbering first stmts).2 = first + (labelsOf stmts).length ∧
      ∀ l ∈ labelsOf stmts, (numbering first stmts).1.apply l = first + (labelsOf stmts).idxOf l := by
  obtain ⟨hcount, hlast, -⟩ := numbering_apply first stmts
  exact ⟨hcount, fun l hl => hlast l _ (lastAt_idxOf h hl)⟩

/-! ## The normal form -/

/-- The label in front of the normal form, if the statements kept do not start with one. -/
def lead (stmts : List Stmt) : List Stmt :=
  if (leadingLabel? (kept stmts)).isSome then [] else [.label 0]

/-- The number that a kept label gets: its position among them, after the label in front. -/
def newLabel (stmts : List Stmt) (l : Label) : Label :=
  (lead stmts).length + (labelsOf (kept stmts)).idxOf l

theorem normalize_eq_numbering (stmts : List Stmt) (locals : List Local) :
    normalize stmts locals =
      { stmts := lead stmts ++
          (kept stmts).map (numbering (lead stmts).length (kept stmts)).1.rename,
        labelCount := (numbering (lead stmts).length (kept stmts)).2, locals := locals } :=
  rfl

/-- **The normal form of a well-labelled list**, label by label. -/
theorem normalize_eq {stmts : List Stmt} (h : Labelled stmts) (locals : List Local) :
    normalize stmts locals =
      { stmts := lead stmts ++ (kept stmts).map (Stmt.relabel (newLabel stmts)),
        labelCount := (lead stmts).length + (labelsOf (kept stmts)).length, locals := locals } := by
  obtain ⟨hcount, happly⟩ := numbering_spec (lead stmts).length (kept stmts) (nodup_kept h.nodup)
  have hmap : (kept stmts).map (numbering (lead stmts).length (kept stmts)).1.rename =
      (kept stmts).map (Stmt.relabel (newLabel stmts)) := by
    refine List.map_congr_left fun s hs => ?_
    refine Stmt.relabel_congr fun l hl => ?_
    rw [happly l (h.mem_kept hs hl)]
    rfl
  rw [← hcount, ← hmap]
  rfl

theorem labelsOf_lead (stmts : List Stmt) :
    labelsOf (lead stmts) = List.range (lead stmts).length := by
  unfold lead
  split <;> rfl

/-- **The labels of the normal form are numbered in statement order**, also if a label is named that
has no statement. -/
theorem labelsOf_normalize {stmts : List Stmt} (h : (labelsOf stmts).Nodup) (locals : List Local) :
    labelsOf (normalize stmts locals).stmts = List.range (normalize stmts locals).labelCount := by
  obtain ⟨hcount, happly⟩ := numbering_spec (lead stmts).length (kept stmts) (nodup_kept h)
  have hrename : (numbering (lead stmts).length (kept stmts)).1.rename =
      Stmt.relabel (numbering (lead stmts).length (kept stmts)).1.apply := rfl
  rw [normalize_eq_numbering]
  simp only [hcount, hrename, labelsOf_append, labelsOf_lead, labelsOf_map_relabel, List.range_add]
  congr 1
  refine List.ext_getElem (by simp) fun i hi hi' => ?_
  rw [List.getElem_map, List.getElem_map, List.getElem_range, happly _ (List.getElem_mem _),
    (nodup_kept h).idxOf_getElem]

/-- **The normal form starts with label 0.** -/
theorem normalize_head {stmts : List Stmt} (h : Labelled stmts) (locals : List Local) :
    ∃ rest, (normalize stmts locals).stmts = .label 0 :: rest := by
  rw [normalize_eq h]
  by_cases hl : (leadingLabel? (kept stmts)).isSome
  · have hlead : lead stmts = [] := if_pos hl
    cases hk : kept stmts with
    | nil => simp [hk, leadingLabel?] at hl
    | cons s rest =>
      cases s with
      | label l =>
        refine ⟨rest.map (Stmt.relabel (newLabel stmts)), ?_⟩
        simp [hlead, Stmt.relabel, Transform.stmt, newLabel, hk, labelsOf, Stmt.label?]
      | _ => simp [hk, leadingLabel?, Stmt.label?] at hl
  · have hlead : lead stmts = [.label 0] := if_neg hl
    exact ⟨_, by rw [hlead]; rfl⟩

/-- A statement of the normal form is the label in front or a statement of the list with new label
numbers. -/
theorem mem_normalize {stmts : List Stmt} (h : Labelled stmts) {locals : List Local} {s : Stmt}
    (hs : s ∈ (normalize stmts locals).stmts) :
    s = .label 0 ∨ ∃ t ∈ kept stmts, s = t.relabel (newLabel stmts) := by
  rw [normalize_eq h] at hs
  rcases List.mem_append.mp hs with hs | hs
  · left
    unfold lead at hs
    split at hs <;> simp_all
  · right
    obtain ⟨t, ht, rfl⟩ := List.mem_map.mp hs
    exact ⟨t, ht, rfl⟩

/-- Only labels of the normal form are named in it. -/
theorem names_lt_of_mem_normalize {stmts : List Stmt} (h : Labelled stmts) {locals : List Local}
    {s : Stmt} (hs : s ∈ (normalize stmts locals).stmts) {l : Label} (hl : l ∈ s.names) :
    l < (normalize stmts locals).labelCount := by
  obtain ⟨rest, hrest⟩ := normalize_head h locals
  have hpos : 0 ∈ labelsOf (normalize stmts locals).stmts := by
    rw [hrest, mem_labelsOf]
    exact List.mem_cons_self
  rcases mem_normalize h hs with rfl | ⟨t, ht, rfl⟩
  · simp only [Stmt.names, List.mem_singleton] at hl
    rw [labelsOf_normalize h.nodup, List.mem_range] at hpos
    rwa [hl]
  · rw [Stmt.names_relabel, List.mem_map] at hl
    obtain ⟨k, hk, rfl⟩ := hl
    rw [normalize_eq h]
    exact Nat.add_lt_add_left (List.idxOf_lt_length_of_mem (h.mem_kept ht hk)) _

theorem guardOk_of_mem_normalize {stmts : List Stmt} (h : Labelled stmts) {locals : List Local}
    {s : Stmt} (hs : s ∈ (normalize stmts locals).stmts) : s.GuardOk := by
  rcases mem_normalize h hs with rfl | ⟨t, ht, rfl⟩
  · intro cond guarded he
    cases he
  · exact Stmt.guardOk_relabel (h.guards t (mem_prune.mp ht).1)

/-- **A normal body**: it starts with label 0, its labels are numbered in statement order, only
those are named, and branches guard jumps and returns. -/
structure Normal (b : Body) : Prop where
  head : ∃ rest, b.stmts = .label 0 :: rest
  labels : labelsOf b.stmts = List.range b.labelCount
  named : ∀ s ∈ b.stmts, ∀ l ∈ s.names, l < b.labelCount
  guards : ∀ s ∈ b.stmts, s.GuardOk

theorem normal_normalize {stmts : List Stmt} (h : Labelled stmts) (locals : List Local) :
    (normalize stmts locals).Normal where
  head := normalize_head h locals
  labels := labelsOf_normalize h.nodup locals
  named _ hs _ hl := names_lt_of_mem_normalize h hs hl
  guards _ hs := guardOk_of_mem_normalize h hs

/-- **A normal body is well labelled**: each label has one statement, and every label that is named
has its statement. -/
theorem Normal.labelled {b : Body} (h : b.Normal) : Labelled b.stmts where
  nodup := by
    rw [h.labels]
    exact List.nodup_range
  named s hs l hl := by
    rw [h.labels]
    exact List.mem_range.mpr (h.named s hs l hl)
  guards := h.guards

/-! ## Names of labels do not matter -/

section Relabel

variable {f : Label → Label}

theorem leadingLabel?_map_relabel (f : Label → Label) (stmts : List Stmt) :
    leadingLabel? (stmts.map (Stmt.relabel f)) = (leadingLabel? stmts).map f := by
  cases stmts with
  | nil => rfl
  | cons s rest => simp [leadingLabel?, Stmt.label?_relabel]

theorem neededLabels_map_relabel (f : Label → Label) (stmts : List Stmt) :
    neededLabels (stmts.map (Stmt.relabel f)) = (neededLabels stmts).map f := by
  induction stmts with
  | nil => rfl
  | cons s rest ih =>
    cases s with
    | branch cond guarded =>
      have hj := Stmt.jump?_relabel f guarded
      have hl := leadingLabel?_map_relabel f rest
      simp only [Stmt.relabel] at hj hl ih
      simp only [List.map_cons, Stmt.relabel, Transform.stmt, neededLabels, hj, hl, ih,
        List.map_append]
      cases guarded.jump? <;> cases leadingLabel? rest <;> rfl
    | _ => simp_all [Stmt.relabel, Transform.stmt, neededLabels]

theorem kept_map_relabel (hf : Function.Injective f) (stmts : List Stmt) :
    kept (stmts.map (Stmt.relabel f)) = (kept stmts).map (Stmt.relabel f) := by
  rw [kept, neededLabels_map_relabel, kept, prune, prune, List.filter_map]
  congr 1
  refine List.filter_congr fun s _ => ?_
  cases s <;> simp [Stmt.relabel, Transform.stmt, hf.eq_iff]

theorem idxOf_map_of_injective (hf : Function.Injective f) (ls : List Label) (l : Label) :
    (ls.map f).idxOf (f l) = ls.idxOf l := by
  induction ls with
  | nil => rfl
  | cons k rest ih =>
    have hk : (f k == f l) = (k == l) := by simp [hf.eq_iff]
    rw [List.map_cons, List.idxOf_cons, List.idxOf_cons, hk, ih]

theorem Labelled.map_relabel (hf : Function.Injective f) {stmts : List Stmt} (h : Labelled stmts) :
    Labelled (stmts.map (Stmt.relabel f)) where
  nodup := by
    rw [labelsOf_map_relabel]
    exact h.nodup.map hf
  named s hs l hl := by
    obtain ⟨t, ht, rfl⟩ := List.mem_map.mp hs
    rw [Stmt.names_relabel] at hl
    obtain ⟨k, hk, rfl⟩ := List.mem_map.mp hl
    rw [labelsOf_map_relabel]
    exact List.mem_map_of_mem (h.named t ht k hk)
  guards s hs := by
    obtain ⟨t, ht, rfl⟩ := List.mem_map.mp hs
    exact Stmt.guardOk_relabel (h.guards t ht)

/-- **The normal form does not depend on what the labels are called.** -/
theorem normalize_relabel (hf : Function.Injective f) {stmts : List Stmt} (h : Labelled stmts)
    (locals : List Local) :
    normalize (stmts.map (Stmt.relabel f)) locals = normalize stmts locals := by
  have hlead : lead (stmts.map (Stmt.relabel f)) = lead stmts := by
    simp only [lead, kept_map_relabel hf, leadingLabel?_map_relabel, Option.isSome_map]
  have hnew : newLabel (stmts.map (Stmt.relabel f)) ∘ f = newLabel stmts := by
    funext l
    simp only [Function.comp_apply, newLabel, hlead, kept_map_relabel hf, labelsOf_map_relabel,
      idxOf_map_of_injective hf]
  rw [normalize_eq h, normalize_eq (h.map_relabel hf), hlead, kept_map_relabel hf,
    labelsOf_map_relabel, List.map_map, List.length_map]
  congr 2
  refine List.map_congr_left fun s _ => ?_
  rw [Function.comp_apply, Stmt.relabel_relabel, hnew]

end Relabel

end Body

end StoryVM
