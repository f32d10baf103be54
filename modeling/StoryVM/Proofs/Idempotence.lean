import Mathlib.Data.List.Basic
import StoryVM.Proofs.NormalForm

/-! # Bringing a list into normal form twice

Bringing statements into normal form a second time changes nothing (`normalize_idempotent`). This is
so for every list of statements, also for one in which a label has several statements, a jump leads
to a label that has none, or branches guard branches.

* `LastAt`: the last place of a label in a list. With several statements for one label, the last one
  counts: the number of a label is its last place (`numbering_apply`). Different labels have different
  ones, so a label that has been renumbered stands at its own number last (`lastAt_renumbered`).
* `neededLabels_kept`: dropping labels that nothing needs makes no other label unneeded.
* `Settled`: each label is needed and its number is its last place. The normal form of every list is
  like that (`settled_normalize`), and such a body is its own normal form (`Settled.normalize`). -/

namespace StoryVM

namespace Body

/-! ## Labels that are needed -/

theorem exists_cons_of_leadingLabel? {stmts : List Stmt} {l : Label}
    (h : leadingLabel? stmts = some l) : ∃ rest, stmts = .label l :: rest := by
  cases stmts with
  | nil => cases h
  | cons s rest => exact ⟨rest, by rw [Stmt.mem_names_of_label? h]⟩

theorem mem_neededLabels_of_leading {cond : Expr} {guarded : Stmt} {rest : List Stmt} {l : Label}
    (h : leadingLabel? rest = some l) : l ∈ neededLabels (.branch cond guarded :: rest) := by
  simp [neededLabels, h]

/-- Dropping labels outside of what is needed keeps what is needed. -/
theorem neededLabels_prune {needed : List Label} {stmts : List Stmt}
    (h : ∀ l ∈ neededLabels stmts, l ∈ needed) :
    neededLabels (prune needed stmts) = neededLabels stmts := by
  induction stmts with
  | nil => rfl
  | cons s rest ih =>
    cases s with
    | label l =>
      have hrest := ih h
      by_cases hl : l ∈ needed
      · have hkeep : prune needed (.label l :: rest) = .label l :: prune needed rest :=
          List.filter_cons_of_pos (by simpa using hl)
        rw [hkeep]
        exact hrest
      · have hdrop : prune needed (.label l :: rest) = prune needed rest :=
          List.filter_cons_of_neg (by simpa using hl)
        rw [hdrop]
        exact hrest
    | branch cond guarded =>
      -- A label that directly follows a branch is needed, so it still follows it.
      have hlead : leadingLabel? (prune needed rest) = leadingLabel? rest := by
        cases rest with
        | nil => rfl
        | cons t more =>
          cases t with
          | label l =>
            have hl : l ∈ needed := h l (mem_neededLabels_of_leading rfl)
            have hkeep : prune needed (.label l :: more) = .label l :: prune needed more :=
              List.filter_cons_of_pos (by simpa using hl)
            rw [hkeep]
            rfl
          | _ => rfl
      have hrest := ih fun l hl => h l (by simp [neededLabels, hl])
      have hkeep : prune needed (.branch cond guarded :: rest) =
          .branch cond guarded :: prune needed rest := rfl
      rw [hkeep, neededLabels, neededLabels, hlead, hrest]
    | jump l =>
      have hrest := ih fun k hk => h k (List.mem_cons_of_mem l hk)
      exact congrArg (l :: ·) hrest
    | _ => exact ih h

/-- **Dropping the labels that nothing needs** makes no other label unneeded. -/
theorem neededLabels_kept (stmts : List Stmt) : neededLabels (kept stmts) = neededLabels stmts :=
  neededLabels_prune fun _ hl => hl

theorem prune_eq_self {needed : List Label} {stmts : List Stmt}
    (h : ∀ l ∈ labelsOf stmts, l ∈ needed) : prune needed stmts = stmts := by
  refine List.filter_eq_self.mpr fun s hs => ?_
  cases s with
  | label l => simpa using h l (mem_labelsOf.mpr hs)
  | _ => rfl

/-! ## Settled bodies -/

/-- **A settled body**: it starts with a label, all labels are needed, but perhaps for a label 0 in
front that no other label follows, and each label's number is its last place. -/
structure Settled (b : Body) : Prop where
  head : ∃ l rest, b.stmts = .label l :: rest ∧ (∀ k ∈ labelsOf rest, k ∈ neededLabels rest) ∧
    (l ∈ neededLabels rest ∨ l = 0 ∧ leadingLabel? rest = none)
  last : ∀ l ∈ labelsOf b.stmts, LastAt (labelsOf b.stmts) l l
  count : b.labelCount = (labelsOf b.stmts).length

/-- A numbering that gives each label its own number changes no statement. -/
theorem map_rename_eq_self {first : Nat} {stmts : List Stmt}
    (h : ∀ l ∈ labelsOf stmts, ∃ k, LastAt (labelsOf stmts) l k ∧ l = first + k) :
    stmts.map (numbering first stmts).1.rename = stmts := by
  obtain ⟨-, hlast, hnone⟩ := numbering_apply first stmts
  have happly : ∀ l, (numbering first stmts).1.apply l = l := by
    intro l
    by_cases hl : l ∈ labelsOf stmts
    · obtain ⟨k, hk, hfirst⟩ := h l hl
      exact (hlast l k hk).trans hfirst.symm
    · exact hnone l hl
  refine (List.map_congr_left fun s _ => ?_).trans (List.map_id stmts)
  exact (Stmt.relabel_congr fun l _ => happly l).trans (Transform.stmt_default s)

/-- **A settled body is its own normal form.** -/
theorem Settled.normalize {b : Body} (h : b.Settled) : normalize b.stmts b.locals = b := by
  obtain ⟨l, rest, hstmts, hrest, hl⟩ := h.head
  obtain ⟨stmts, labelCount, locals⟩ := b
  obtain rfl : stmts = .label l :: rest := hstmts
  have hlast : ∀ k ∈ l :: labelsOf rest, LastAt (l :: labelsOf rest) k k := h.last
  have hcount : labelCount = (labelsOf rest).length + 1 := h.count
  by_cases hmem : l ∈ neededLabels rest
  · -- Every label is needed, so nothing is dropped and nothing is put in front.
    have hkept : kept (.label l :: rest) = .label l :: rest := by
      refine prune_eq_self fun k hk => ?_
      rcases List.mem_cons.mp hk with rfl | hk
      · exact hmem
      · exact hrest k hk
    have hlead : lead (.label l :: rest) = [] := by simp [lead, hkept, leadingLabel?, Stmt.label?]
    have hself : (.label l :: rest).map (numbering 0 (.label l :: rest)).1.rename =
        .label l :: rest :=
      map_rename_eq_self fun k hk => ⟨k, hlast k hk, (Nat.zero_add k).symm⟩
    obtain ⟨hnext, -, -⟩ := numbering_apply 0 (.label l :: rest)
    rw [normalize_eq_numbering, hkept, hlead, List.nil_append, List.length_nil, hself, hnext, hcount,
      Nat.zero_add]
    rfl
  · -- The label in front is dropped and put there again.
    obtain ⟨rfl, hnone⟩ := hl.resolve_left hmem
    have hkept : kept (.label 0 :: rest) = rest := by
      have hdrop : prune (neededLabels rest) (.label 0 :: rest) = prune (neededLabels rest) rest :=
        List.filter_cons_of_neg (by simpa using hmem)
      exact hdrop.trans (prune_eq_self hrest)
    have hlead : lead (.label 0 :: rest) = [.label 0] := by simp [lead, hkept, hnone]
    have hself : rest.map (numbering 1 rest).1.rename = rest := by
      refine map_rename_eq_self fun k hk => ?_
      have hk' := hlast k (List.mem_cons_of_mem 0 hk)
      cases k with
      | zero => exact absurd (hrest 0 hk) hmem
      | succ k => exact ⟨k, hk'.of_cons, Nat.add_comm k 1⟩
    obtain ⟨hnext, -, -⟩ := numbering_apply 1 rest
    rw [normalize_eq_numbering, hkept, hlead, List.length_singleton, hself, hnext, hcount,
      Nat.add_comm]
    rfl

/-! ## The normal form is settled -/

/-- Labels whose numbers are their last places, behind the numbers below `first`, all stand at their
own number last. -/
theorem lastAt_renumbered {first : Nat} {ls : List Label} {f : Label → Nat}
    (hf : ∀ l k, LastAt ls l k → f l = first + k) {x : Nat}
    (hx : x ∈ List.range first ++ ls.map f) : LastAt (List.range first ++ ls.map f) x x := by
  have hbelow : ∀ j, j < first → (List.range first ++ ls.map f)[j]? = some j := by
    intro j hj
    rw [List.getElem?_append_left (by simpa using hj), List.getElem?_range hj]
  have habove : ∀ j y : Nat, first ≤ j → (List.range first ++ ls.map f)[j]? = some y →
      ∃ l k, LastAt ls l k ∧ ls[j - first]? = some l ∧ y = first + k := by
    intro j y hj hy
    rw [List.getElem?_append_right (by simpa using hj), List.length_range, List.getElem?_map] at hy
    obtain ⟨l, hl, rfl⟩ := Option.map_eq_some_iff.mp hy
    obtain ⟨k, hk⟩ := exists_lastAt (List.mem_of_getElem? hl)
    exact ⟨l, k, hk, hl, hf l k hk⟩
  rcases List.mem_append.mp hx with hx | hx
  · have hlt : x < first := List.mem_range.mp hx
    refine ⟨hbelow x hlt, fun j hj hget => ?_⟩
    rcases Nat.lt_or_ge j first with hjf | hjf
    · rw [hbelow j hjf] at hget
      exact absurd (Option.some.inj hget) (Nat.ne_of_gt hj)
    · obtain ⟨l, k, -, -, hk⟩ := habove j x hjf hget
      omega
  · obtain ⟨l, hl, rfl⟩ := List.mem_map.mp hx
    obtain ⟨k, hk⟩ := exists_lastAt hl
    have hfl := hf l k hk
    refine ⟨?_, fun j hj hget => ?_⟩
    · rw [hfl, List.getElem?_append_right (by simp), List.length_range, Nat.add_sub_cancel_left,
        List.getElem?_map, hk.1, ← hfl]
      rfl
    · -- Two labels with the same number have the same last place, so they are one label.
      obtain ⟨l', k', hk', hl', he⟩ := habove j (f l) (by omega) hget
      obtain rfl : k = k' := by omega
      obtain rfl : l = l' := Option.some.inj (hk.1.symm.trans hk'.1)
      exact hk.2 (j - first) (by omega) hl'

/-- **The normal form of every list of statements is settled.** -/
theorem settled_normalize (stmts : List Stmt) (locals : List Local) :
    (normalize stmts locals).Settled := by
  obtain ⟨hnext, hlast, -⟩ := numbering_apply (lead stmts).length (kept stmts)
  have hkept : ∀ l ∈ labelsOf (kept stmts), l ∈ neededLabels (kept stmts) := by
    intro l hl
    rw [kept, labelsOf_prune, List.mem_filter, List.contains_iff_mem] at hl
    rw [neededLabels_kept]
    exact hl.2
  rw [normalize_eq_numbering]
  generalize numbering (lead stmts).length (kept stmts) = numbers at hnext hlast
  have hrename : numbers.1.rename = Stmt.relabel numbers.1.apply := rfl
  have hlabels : labelsOf (lead stmts ++ (kept stmts).map numbers.1.rename) =
      List.range (lead stmts).length ++ (labelsOf (kept stmts)).map numbers.1.apply := by
    rw [labelsOf_append, labelsOf_lead, hrename, labelsOf_map_relabel]
  refine ⟨?_, fun l hl => ?_, ?_⟩
  · -- What is needed, and what comes first, is the same before and after the renaming.
    have hneeded : ∀ rest, (∀ l ∈ labelsOf rest, l ∈ neededLabels (kept stmts)) →
        neededLabels rest = neededLabels (kept stmts) →
        ∀ k ∈ labelsOf (rest.map numbers.1.rename), k ∈ neededLabels (rest.map numbers.1.rename) := by
      intro rest hrest he k hk
      rw [hrename, labelsOf_map_relabel] at hk
      obtain ⟨l, hl, rfl⟩ := List.mem_map.mp hk
      rw [hrename, neededLabels_map_relabel, he]
      exact List.mem_map_of_mem (hrest l hl)
    cases hfirst : leadingLabel? (kept stmts) with
    | none =>
      have hlead : lead stmts = [.label 0] := by simp [lead, hfirst]
      refine ⟨0, (kept stmts).map numbers.1.rename, by rw [hlead]; rfl, hneeded _ hkept rfl, ?_⟩
      right
      rw [hrename, leadingLabel?_map_relabel, hfirst]
      exact ⟨rfl, rfl⟩
    | some l =>
      have hlead : lead stmts = [] := by simp [lead, hfirst]
      obtain ⟨rest, hrest⟩ := exists_cons_of_leadingLabel? hfirst
      have he : neededLabels rest = neededLabels (kept stmts) := by
        rw [hrest]
        rfl
      have hmem : ∀ k ∈ l :: labelsOf rest, k ∈ neededLabels (kept stmts) := by
        intro k hk
        refine hkept k ?_
        rw [hrest]
        exact hk
      refine ⟨numbers.1.apply l, rest.map numbers.1.rename, ?_,
        hneeded rest (fun k hk => hmem k (List.mem_cons_of_mem l hk)) he, Or.inl ?_⟩
      · rw [hlead, hrest]
        rfl
      · rw [hrename, neededLabels_map_relabel, he]
        exact List.mem_map_of_mem (hmem l List.mem_cons_self)
  · rw [hlabels] at hl ⊢
    exact lastAt_renumbered hlast hl
  · simp only [hlabels, hnext, List.length_append, List.length_range, List.length_map]

/-- **Bringing statements into normal form twice** is the same as once, whatever the statements. -/
theorem normalize_idempotent (stmts : List Stmt) (locals : List Local) :
    normalize (normalize stmts locals).stmts (normalize stmts locals).locals =
      normalize stmts locals :=
  (settled_normalize stmts locals).normalize

end Body

end StoryVM
