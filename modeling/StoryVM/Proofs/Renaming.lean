import StoryVM.Proofs.NormalForm

/-! # Renaming labels

Renaming the labels of a statement is a simultaneous substitution
(`Renaming.rename_simultaneous`).

* `Stmt.Alike`: statements that differ in label numbers only. Together with the labels that it
  names this determines a statement (`Stmt.Alike.eq_of_names`), so renaming is described without
  the recursion that performs it (`Renaming.eq_rename_iff`).
* `Renaming.ofFun`: a function on labels as a renaming of finitely many of them. Two renamings one
  after the other are one (`Renaming.exists_andThen`), and a renaming that permutes labels has an
  inverse, whose entries are the same in the other direction (`Renaming.exists_reverses`). -/

namespace StoryVM

/-! ## Statements but for their labels -/

namespace Stmt

/-- **Statements that differ in label numbers only**: what they do and all expressions are the
same. -/
def Alike : Stmt → Stmt → Prop
  | label _, label _ => True
  | jump _, jump _ => True
  | branch cond guarded, branch cond' guarded' => cond = cond' ∧ guarded.Alike guarded'
  | s, s' => s = s'

theorem alike_relabel (f : Label → Label) (s : Stmt) : s.Alike (s.relabel f) := by
  induction s with
  | branch cond guarded ih => exact ⟨(Transform.expr_of_node_id f cond).symm, ih⟩
  | label | jump => trivial
  | _ => simp [Alike, relabel, Transform.stmt, Transform.expr_of_node_id]

/-- **A statement is determined** by all that is not a label number and by the label numbers. -/
theorem Alike.eq_of_names {s t t' : Stmt} (h : s.Alike t) (h' : s.Alike t')
    (hn : t.names = t'.names) : t = t' := by
  induction s generalizing t t' with
  | label | jump =>
    cases t <;> cases t' <;> simp_all [Alike, names]
  | branch cond guarded ih =>
    cases t <;> cases t' <;> simp only [Alike, reduceCtorEq] at h h'
    obtain ⟨rfl, h⟩ := h
    obtain ⟨rfl, h'⟩ := h'
    rw [ih h h' hn]
  | _ => exact Eq.trans (Eq.symm h) h'

end Stmt

namespace Renaming

variable {r r' : Renaming}

/-! ## The description of a renaming -/

/-- **Renaming**, told by what stays and what the labels become. -/
theorem eq_rename_iff (r : Renaming) (s s' : Stmt) :
    s' = r.rename s ↔ s.Alike s' ∧ s'.names = s.names.map r.apply := by
  have hself : s.Alike (r.rename s) ∧ (r.rename s).names = s.names.map r.apply :=
    ⟨s.alike_relabel r.apply, s.names_relabel r.apply⟩
  constructor
  · rintro rfl
    exact hself
  · rintro ⟨h, hn⟩
    exact h.eq_of_names hself.1 (hn.trans hself.2.symm)

theorem rename_rename {r₂ : Renaming} (h : ∀ l, r₂.apply l = r'.apply (r.apply l)) (s : Stmt) :
    r'.rename (r.rename s) = r₂.rename s := by
  change (s.relabel r.apply).relabel r'.apply = s.relabel r₂.apply
  rw [Stmt.relabel_relabel]
  exact Stmt.relabel_congr fun l _ => (h l).symm

theorem rename_rename_eq_self (h : ∀ l, r'.apply (r.apply l) = l) (s : Stmt) :
    r'.rename (r.rename s) = s := by
  have hid : (s.relabel r.apply).relabel r'.apply = s.relabel id := by
    rw [Stmt.relabel_relabel]
    exact Stmt.relabel_congr fun l _ => h l
  exact hid.trans (Transform.stmt_default s)

/-! ## Finite functions -/

theorem apply_of_getElem? {l l' : Label} (h : r.map[l]? = some l') : r.apply l = l' := by
  rw [apply, Std.TreeMap.get?_eq_getElem?, h, Option.getD_some]

theorem apply_of_getElem?_none {l : Label} (h : r.map[l]? = none) : r.apply l = l := by
  rw [apply, Std.TreeMap.get?_eq_getElem?, h, Option.getD_none]

/-- An entry says what a label that has one becomes. -/
theorem getElem?_eq_some_iff {l l' : Label} :
    r.map[l]? = some l' ↔ l ∈ r.map.keys ∧ r.apply l = l' := by
  rw [Std.TreeMap.mem_keys]
  constructor
  · intro h
    exact ⟨Std.TreeMap.mem_iff_isSome_getElem?.mpr (h ▸ rfl), apply_of_getElem? h⟩
  · rintro ⟨hl, rfl⟩
    obtain ⟨l', h⟩ := Option.isSome_iff_exists.mp (Std.TreeMap.mem_iff_isSome_getElem?.mp hl)
    rw [apply_of_getElem? h, h]

theorem apply_of_not_mem {l : Label} (h : l ∉ r.map.keys) : r.apply l = l := by
  rw [Std.TreeMap.mem_keys] at h
  exact apply_of_getElem?_none (Std.TreeMap.getElem?_eq_none h)

/-- **A function as a renaming** of the labels in a list. -/
def ofFun (f : Label → Label) : List Label → Renaming
  | [] => {}
  | l :: ls => (ofFun f ls).insert l (f l)

theorem getElem?_ofFun (f : Label → Label) (ls : List Label) (l : Label) :
    (ofFun f ls).map[l]? = if l ∈ ls then some (f l) else none := by
  induction ls with
  | nil => exact Std.TreeMap.getElem?_emptyc
  | cons k ls ih =>
    rw [ofFun, insert, Std.TreeMap.getElem?_insert, ih]
    by_cases hk : k = l
    · simp [hk]
    · simp [hk, Ne.symm hk]

theorem apply_ofFun {f : Label → Label} {ls : List Label} (h : ∀ l ∉ ls, f l = l) (l : Label) :
    (ofFun f ls).apply l = f l := by
  have hget := getElem?_ofFun f ls l
  by_cases hl : l ∈ ls
  · rw [if_pos hl] at hget
    exact apply_of_getElem? hget
  · rw [if_neg hl] at hget
    rw [apply_of_getElem?_none hget, h l hl]

/-- **Two renamings one after the other** are one. -/
theorem exists_andThen (r r' : Renaming) :
    ∃ r₂ : Renaming, ∀ l, r₂.apply l = r'.apply (r.apply l) := by
  refine ⟨ofFun (fun l => r'.apply (r.apply l)) (r.map.keys ++ r'.map.keys), apply_ofFun ?_⟩
  intro l hl
  rw [List.mem_append, not_or] at hl
  rw [apply_of_not_mem hl.1, apply_of_not_mem hl.2]

/-! ## The other direction -/

/-- The entries of the one renaming are those of the other, in the other direction. -/
def Reverses (r' r : Renaming) : Prop :=
  ∀ l l' : Label, r'.map[l']? = some l ↔ r.map[l]? = some l'

/-- **A renaming in the other direction** takes labels back, if no two became one. -/
theorem Reverses.apply_apply (h : r'.Reverses r) (hr : Function.Injective r.apply) (l : Label) :
    r'.apply (r.apply l) = l := by
  cases hl : r.map[l]? with
  | some l' =>
    rw [apply_of_getElem? hl]
    exact apply_of_getElem? ((h l l').mpr hl)
  | none =>
    rw [apply_of_getElem?_none hl]
    cases hl' : r'.map[l]? with
    | none => exact apply_of_getElem?_none hl'
    | some k =>
      -- `k` becomes `l`, and so does `l`, which has no entry.
      have hk := (h k l).mp hl'
      have hkl : r.apply k = r.apply l := by rw [apply_of_getElem? hk, apply_of_getElem?_none hl]
      rw [hr hkl] at hk
      rw [hk] at hl
      exact absurd hl nofun

theorem exists_reverses (hr : Function.Bijective r.apply) : ∃ r' : Renaming, r'.Reverses r := by
  obtain ⟨g, hleft, hright⟩ := Function.bijective_iff_has_inverse.mp hr
  -- A label without an entry stays, so a label becomes one with an entry only if it has one.
  have hkeys : ∀ l, r.apply l ∈ r.map.keys ↔ l ∈ r.map.keys := by
    intro l
    constructor
    · intro hl
      by_contra hnone
      rw [apply_of_not_mem hnone] at hl
      exact hnone hl
    · intro hl
      by_contra hnone
      have hfix : r.apply l = l := hr.1 (apply_of_not_mem hnone)
      rw [hfix] at hnone
      exact hnone hl
  refine ⟨ofFun g r.map.keys, fun l l' => ?_⟩
  rw [getElem?_ofFun, Option.ite_none_right_eq_some, Option.some.injEq, getElem?_eq_some_iff]
  constructor
  · rintro ⟨hl', rfl⟩
    rw [← hright l', hkeys] at hl'
    exact ⟨hl', hright l'⟩
  · rintro ⟨hl, rfl⟩
    exact ⟨(hkeys l).mpr hl, hleft l⟩

/-- **Renaming is a simultaneous substitution.** What becomes of a statement differs from it in
label numbers only, and the labels that it names, at any depth, become their images under the
renaming, once: those of the entries, or the labels themselves. One renaming after another is any
that composes the two, and there is one. A renaming is undone by any that takes all labels back; if
it permutes the labels, that is so for the one with its entries in the other direction, which
exists. The transform without hooks leaves all statements and expressions as they are. -/
theorem rename_simultaneous (r : Renaming) :
    (∀ l, (∀ l', r.map[l]? = some l' → r.apply l = l') ∧ (r.map[l]? = none → r.apply l = l)) ∧
    (∀ s s', s' = r.rename s ↔ s.Alike s' ∧ s'.names = s.names.map r.apply) ∧
    (∀ r' : Renaming, (∃ r₂ : Renaming, ∀ l, r₂.apply l = r'.apply (r.apply l)) ∧
      ∀ r₂ : Renaming, (∀ l, r₂.apply l = r'.apply (r.apply l)) →
        ∀ s, r'.rename (r.rename s) = r₂.rename s) ∧
    (∀ r' : Renaming, (∀ l, r'.apply (r.apply l) = l) → ∀ s, r'.rename (r.rename s) = s) ∧
    (Function.Bijective r.apply → (∃ r' : Renaming, r'.Reverses r) ∧
      ∀ r' : Renaming, r'.Reverses r → ∀ s, r'.rename (r.rename s) = s) ∧
    (∀ s, Transform.stmt {} s = s) ∧ ∀ e, Transform.expr {} e = e := by
  refine ⟨fun l => ⟨fun _ => apply_of_getElem?, apply_of_getElem?_none⟩, r.eq_rename_iff, ?_, ?_,
    ?_, Transform.stmt_default, Transform.expr_of_node_id id⟩
  · intro r'
    exact ⟨r.exists_andThen r', fun r₂ h => rename_rename h⟩
  · intro r' h
    exact rename_rename_eq_self h
  · intro hr
    exact ⟨exists_reverses hr, fun r' h => rename_rename_eq_self (h.apply_apply hr.1)⟩

/-- The labels 0 and 1 exchanged. -/
def exchange : Renaming := (({} : Renaming).insert 0 1).insert 1 0

theorem rename_simultaneous_exchange :
    Function.Bijective exchange.apply ∧
    (∀ e, exchange.rename (.branch e (.jump 0)) = .branch e (.jump 1)) ∧
    (∀ s, exchange.rename (exchange.rename s) = s) ∧
    ∃ r' : Renaming, r'.Reverses exchange ∧ ∀ s, r'.rename (exchange.rename s) = s := by
  have happly : ∀ l, exchange.apply l = if 1 = l then 0 else if 0 = l then 1 else l := by
    intro l
    rw [exchange, Body.apply_insert, Body.apply_insert]
    rfl
  have hself : ∀ l, exchange.apply (exchange.apply l) = l := by
    intro l
    rcases l with _ | _ | l <;> simp [happly]
  have hbijective := Function.Involutive.bijective hself
  obtain ⟨-, hrename, -, hundo, hreverse, -⟩ := rename_simultaneous exchange
  obtain ⟨⟨r', hr'⟩, hreversed⟩ := hreverse hbijective
  refine ⟨hbijective, ?_, hundo exchange hself, r', hr', hreversed r' hr'⟩
  intro e
  have halike : Stmt.Alike (.branch e (.jump 0)) (.branch e (.jump 1)) := ⟨rfl, trivial⟩
  refine ((hrename _ _).mpr ⟨halike, ?_⟩).symm
  change [1] = [exchange.apply 0]
  rw [happly]
  rfl

end Renaming

end StoryVM
