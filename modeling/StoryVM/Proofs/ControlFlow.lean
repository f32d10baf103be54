import Mathlib.Tactic.Common
import StoryVM.Proofs.NormalForm

/-! # The normal form keeps the flow of control

Labels do nothing by themselves: control passes them on its way to the next statement that is none.
So the flow of control through a list of statements is a matter of its *plain* statements, those
that are no labels, and each of them has a number (`plain`). Bringing a list into normal form drops,
adds and renumbers labels, and none of that is seen in the flow (`normalize_flow`).

* `continuation`: the number of the plain statement that control comes to from another one, for
  each outcome of its test. Jumps come to the first plain statement after their label (`landing`).
* `walk`: the plain statements that a run through the list executes, for a given sequence of
  outcomes of its branches.

A label without a statement would lead to the end. In a well-labelled list there is none, and its
normal form is well labelled again. -/

namespace StoryVM

/-! ## Where control goes -/

/-- Where control goes after a statement. -/
inductive Onward where
  /-- On to the statement behind it. -/
  | next
  /-- To a label. -/
  | goto (l : Label)
  /-- Out of the routine. -/
  | leave
  deriving DecidableEq, Repr

/-- The same direction, with other label numbers. -/
def Onward.relabel (f : Label → Label) : Onward → Onward
  | goto l => goto (f l)
  | o => o

namespace Stmt

/-- **Where control goes after a statement**, if the test of a branch comes out as `taken`. -/
def onward (taken : Bool) : Stmt → Onward
  | jump l => .goto l
  | branch _ guarded => if taken then guarded.onward taken else .next
  | ret _ | quit => .leave
  | _ => .next

/-- The outcomes that are left for the statements after this one: a branch takes one. -/
def leftOver (outcomes : Nat → Bool) : Stmt → Nat → Bool
  | branch _ _ => fun i => outcomes (i + 1)
  | _ => outcomes

theorem onward_relabel (f : Label → Label) (taken : Bool) (s : Stmt) :
    (s.relabel f).onward taken = (s.onward taken).relabel f := by
  induction s with
  | branch cond guarded ih =>
    have hstep : (branch cond guarded).relabel f = branch cond (guarded.relabel f) := by
      simp [relabel, Transform.stmt, Transform.expr_of_node_id]
    rw [hstep, onward, onward]
    cases taken with
    | true => exact ih
    | false => rfl
  | _ => rfl

theorem leftOver_relabel (f : Label → Label) (outcomes : Nat → Bool) (s : Stmt) :
    (s.relabel f).leftOver outcomes = s.leftOver outcomes := by
  cases s <;> rfl

theorem mem_names_of_onward {s : Stmt} {taken : Bool} {l : Label}
    (h : s.onward taken = .goto l) : l ∈ s.names := by
  induction s with
  | jump k =>
    cases h
    exact List.mem_singleton_self l
  | branch cond guarded ih =>
    rw [onward] at h
    split at h
    · exact ih h
    · cases h
  | _ => cases h

end Stmt

namespace Body

/-- **The plain statements** of a list, which are no labels. -/
def plain (stmts : List Stmt) : List Stmt := stmts.filter (·.label? = none)

/-- The statements from a label on. -/
def after (stmts : List Stmt) (l : Label) : List Stmt := stmts.dropWhile (· ≠ .label l)

/-- **Where a label leads**: the number of plain statements before it, which is the number of the
first plain statement after it, or of the end. A label without a statement leads to the end. -/
def landing (stmts : List Stmt) (l : Label) : Nat :=
  (plain (stmts.takeWhile (· ≠ .label l))).length

/-- **Where control comes to** from the plain statement with number `k`: the number of a plain
statement or of the end, or nothing if the routine is left. -/
def continuation (stmts : List Stmt) (k : Nat) (taken : Bool) : Option Nat :=
  match (plain stmts)[k]?.map (Stmt.onward taken) with
  | some .next => some (k + 1)
  | some (.goto l) => some (landing stmts l)
  | some .leave => none
  | none => none

/-- The statements from the first one on that is no label. -/
def passLabels (stmts : List Stmt) : List Stmt := stmts.dropWhile (·.label?.isSome)

/-- The first `count` plain statements that are executed from the statements `here` of a list on. -/
def walkFrom (stmts : List Stmt) : (count : Nat) → (outcomes : Nat → Bool) → (here : List Stmt) →
    List Stmt
  | 0, _, _ => []
  | count + 1, outcomes, here =>
    match passLabels here with
    | [] => []
    | s :: rest =>
      s :: match s.onward (outcomes 0) with
        | .next => walkFrom stmts count (s.leftOver outcomes) rest
        | .goto l => walkFrom stmts count (s.leftOver outcomes) (after stmts l)
        | .leave => []

/-- **A walk through statements**: the first `count` plain statements that are executed from the
first statement on, when the branches on the way come out as `outcomes` says, one after another. -/
def walk (stmts : List Stmt) (count : Nat) (outcomes : Nat → Bool) : List Stmt :=
  walkFrom stmts count outcomes stmts

/-! ## Plain statements -/

theorem plain_append (a b : List Stmt) : plain (a ++ b) = plain a ++ plain b :=
  List.filter_append a b

theorem plain_label (l : Label) (rest : List Stmt) : plain (.label l :: rest) = plain rest := rfl

theorem plain_cons {s : Stmt} (h : s.label? = none) (rest : List Stmt) :
    plain (s :: rest) = s :: plain rest :=
  List.filter_cons_of_pos (by simpa using h)

theorem mem_plain {stmts : List Stmt} {s : Stmt} :
    s ∈ plain stmts ↔ s ∈ stmts ∧ s.label? = none := by
  simp [plain]

theorem plain_map_relabel (f : Label → Label) (stmts : List Stmt) :
    plain (stmts.map (Stmt.relabel f)) = (plain stmts).map (Stmt.relabel f) := by
  rw [plain, List.filter_map]
  congr 1
  refine List.filter_congr fun s _ => ?_
  simp [Stmt.label?_relabel]

/-- Passing labels comes to the first plain statement, if there is one. -/
theorem passLabels_cases (here : List Stmt) :
    (passLabels here = [] ∧ plain here = []) ∨
      ∃ s rest, passLabels here = s :: rest ∧ plain here = s :: plain rest := by
  induction here with
  | nil => exact Or.inl ⟨rfl, rfl⟩
  | cons s rest ih =>
    cases hs : s.label? with
    | some l =>
      obtain rfl := Stmt.mem_names_of_label? hs
      exact ih
    | none =>
      refine Or.inr ⟨s, rest, ?_, plain_cons hs rest⟩
      simp [passLabels, hs]

/-- The plain statements from a label on are those from its landing on. -/
theorem plain_after (stmts : List Stmt) (l : Label) :
    plain (after stmts l) = (plain stmts).drop (landing stmts l) := by
  have hsplit : plain stmts = plain (stmts.takeWhile (· ≠ .label l)) ++ plain (after stmts l) := by
    rw [after, ← plain_append, List.takeWhile_append_dropWhile]
  rw [hsplit, landing, List.drop_left]

/-! ## Landings in the normal form -/

theorem plain_prune (needed : List Label) (stmts : List Stmt) :
    plain (prune needed stmts) = plain stmts := by
  rw [plain, plain, prune, List.filter_filter]
  refine List.filter_congr fun s _ => ?_
  cases s <;> simp [Stmt.label?]

/-- Dropping other labels does not move a label. -/
theorem landing_prune {needed : List Label} {l : Label} (hl : l ∈ needed) (stmts : List Stmt) :
    landing (prune needed stmts) l = landing stmts l := by
  unfold landing
  induction stmts with
  | nil => rfl
  | cons s rest ih =>
    cases hs : s.label? with
    | none =>
      have hne : s ≠ .label l := by
        rintro rfl
        cases hs
      have hkeep : prune needed (s :: rest) = s :: prune needed rest := by
        refine List.filter_cons_of_pos ?_
        cases s <;> simp_all [Stmt.label?]
      rw [hkeep, List.takeWhile_cons_of_pos (by simpa using hne),
        List.takeWhile_cons_of_pos (by simpa using hne), plain_cons hs, plain_cons hs,
        List.length_cons, List.length_cons, ih]
    | some k =>
      obtain rfl := Stmt.mem_names_of_label? hs
      by_cases hk : k = l
      · subst hk
        have hkeep : prune needed (.label k :: rest) = .label k :: prune needed rest :=
          List.filter_cons_of_pos (by simpa using hl)
        rw [hkeep]
        simp
      · have hpass : ∀ stmts, (Stmt.label k :: stmts).takeWhile (· ≠ .label l) =
            .label k :: stmts.takeWhile (· ≠ .label l) := by
          intro stmts
          exact List.takeWhile_cons_of_pos (by simpa using hk)
        rw [hpass, plain_label, ← ih]
        by_cases hneed : k ∈ needed
        · have hkeep : prune needed (.label k :: rest) = .label k :: prune needed rest :=
            List.filter_cons_of_pos (by simpa using hneed)
          rw [hkeep, hpass, plain_label]
        · have hdrop : prune needed (.label k :: rest) = prune needed rest :=
            List.filter_cons_of_neg (by simpa using hneed)
          rw [hdrop]

/-- Renaming labels apart does not move a label. -/
theorem landing_map_relabel {f : Label → Label} {stmts : List Stmt} {l : Label}
    (hf : ∀ k ∈ labelsOf stmts, f k = f l → k = l) :
    landing (stmts.map (Stmt.relabel f)) (f l) = landing stmts l := by
  have hsame : ∀ s ∈ stmts, s.relabel f = .label (f l) ↔ s = .label l := by
    intro s hs
    cases s with
    | label k =>
      simp only [Stmt.relabel, Transform.stmt, Stmt.label.injEq]
      exact ⟨hf k (mem_labelsOf.mpr hs), congrArg f⟩
    | _ => simp [Stmt.relabel, Transform.stmt]
  have htake : (stmts.map (Stmt.relabel f)).takeWhile (· ≠ .label (f l)) =
      (stmts.takeWhile (· ≠ .label l)).map (Stmt.relabel f) := by
    clear hf
    induction stmts with
    | nil => rfl
    | cons s rest ih =>
      have hs := hsame s List.mem_cons_self
      have hrest := ih fun t ht => hsame t (List.mem_cons_of_mem s ht)
      by_cases hl : s = .label l
      · rw [List.map_cons, List.takeWhile_cons_of_neg (by simpa using hs.mpr hl),
          List.takeWhile_cons_of_neg (by simpa using hl)]
        rfl
      · rw [List.map_cons, List.takeWhile_cons_of_pos (by simpa using fun h => hl (hs.mp h)),
          List.takeWhile_cons_of_pos (by simpa using hl), List.map_cons, hrest]
  rw [landing, landing, htake, plain_map_relabel, List.length_map]

section Normal

variable {stmts : List Stmt}

theorem plain_lead (stmts : List Stmt) : plain (lead stmts) = [] := by
  unfold lead
  split <;> rfl

/-- **The plain statements of the normal form** are those of the list, with new label numbers. -/
theorem plain_normalize (h : Labelled stmts) (locals : List Local) :
    plain (normalize stmts locals).stmts = (plain stmts).map (Stmt.relabel (newLabel stmts)) := by
  rw [normalize_eq h, plain_append, plain_lead, List.nil_append, plain_map_relabel, kept,
    plain_prune]

theorem newLabel_inj {k l : Label} (hk : k ∈ labelsOf (kept stmts))
    (h : newLabel stmts k = newLabel stmts l) : k = l :=
  (List.idxOf_inj hk).mp (Nat.add_left_cancel h)

/-- A plain statement jumps to labels that are kept. -/
theorem Labelled.mem_kept_of_onward (h : Labelled stmts) {s : Stmt} (hs : s ∈ plain stmts)
    {taken : Bool} {l : Label} (hl : s.onward taken = .goto l) : l ∈ labelsOf (kept stmts) := by
  obtain ⟨hmem, hplain⟩ := mem_plain.mp hs
  refine h.mem_kept (mem_prune.mpr ⟨hmem, fun k hk => ?_⟩) (Stmt.mem_names_of_onward hl)
  rw [hk] at hplain
  cases hplain

/-- **A label that is kept leads to the same plain statement as before.** -/
theorem landing_normalize (h : Labelled stmts) (locals : List Local) {l : Label}
    (hl : l ∈ labelsOf (kept stmts)) :
    landing (normalize stmts locals).stmts (newLabel stmts l) = landing stmts l := by
  have hneeded : l ∈ neededLabels stmts := by
    rw [kept, labelsOf_prune, List.mem_filter, List.contains_iff_mem] at hl
    exact hl.2
  have hlead : landing (normalize stmts locals).stmts (newLabel stmts l) =
      landing ((kept stmts).map (Stmt.relabel (newLabel stmts))) (newLabel stmts l) := by
    -- The label in front has the number 0, and then all others have greater numbers.
    rw [normalize_eq h]
    unfold lead
    split
    · rw [List.nil_append]
    · next hnone =>
      have hpos : newLabel stmts l ≠ 0 := by
        have hlead : lead stmts = [.label 0] := if_neg hnone
        rw [newLabel, hlead, List.length_singleton, Nat.add_comm]
        exact Nat.succ_ne_zero _
      rw [List.singleton_append, landing,
        List.takeWhile_cons_of_pos (by simpa using hpos.symm), plain_label, landing]
  calc landing (normalize stmts locals).stmts (newLabel stmts l)
      = landing ((kept stmts).map (Stmt.relabel (newLabel stmts))) (newLabel stmts l) := hlead
    _ = landing (kept stmts) l := landing_map_relabel fun k hk => newLabel_inj hk
    _ = landing stmts l := landing_prune hneeded stmts

/-- **Control comes to the same plain statement as before.** -/
theorem continuation_normalize (h : Labelled stmts) (locals : List Local) (k : Nat) (taken : Bool) :
    continuation (normalize stmts locals).stmts k taken = continuation stmts k taken := by
  unfold continuation
  rw [plain_normalize h, List.getElem?_map, Option.map_map]
  cases hk : (plain stmts)[k]? with
  | none => rfl
  | some s =>
    simp only [Option.map_some, Function.comp_apply, Stmt.onward_relabel]
    cases hon : s.onward taken with
    | next | leave => rfl
    | goto l =>
      have hl := h.mem_kept_of_onward (List.mem_of_getElem? hk) hon
      simp only [Onward.relabel, landing_normalize h locals hl]

/-- From statements with the same plain statements on, walks through the list and through its
normal form execute the same. -/
theorem walkFrom_normalize (h : Labelled stmts) (locals : List Local) (count : Nat)
    (outcomes : Nat → Bool) {here here' : List Stmt} (hsub : ∀ s ∈ plain here, s ∈ plain stmts)
    (hh : plain here' = (plain here).map (Stmt.relabel (newLabel stmts))) :
    walkFrom (normalize stmts locals).stmts count outcomes here' =
      (walkFrom stmts count outcomes here).map (Stmt.relabel (newLabel stmts)) := by
  induction count generalizing outcomes here here' with
  | zero => rfl
  | succ count ih =>
    rcases passLabels_cases here with ⟨hpass, hplain⟩ | ⟨s, rest, hpass, hplain⟩
    · rcases passLabels_cases here' with ⟨hpass', -⟩ | ⟨s', rest', -, hplain'⟩
      · simp only [walkFrom, hpass, hpass', List.map_nil]
      · rw [hplain, hplain'] at hh
        cases hh
    · rw [hplain, List.map_cons] at hh
      rcases passLabels_cases here' with ⟨-, hplain'⟩ | ⟨s', rest', hpass', hplain'⟩
      · rw [hplain'] at hh
        cases hh
      · rw [hplain', List.cons.injEq] at hh
        obtain ⟨rfl, hrest⟩ := hh
        have hs : s ∈ plain stmts := hsub s (by rw [hplain]; exact List.mem_cons_self)
        simp only [walkFrom, hpass, hpass', List.map_cons, Stmt.onward_relabel,
          Stmt.leftOver_relabel]
        congr 1
        cases hon : s.onward (outcomes 0) with
        | next =>
          refine ih _ (fun t ht => hsub t ?_) hrest
          rw [hplain]
          exact List.mem_cons_of_mem s ht
        | goto l =>
          have hl := h.mem_kept_of_onward hs hon
          refine ih _ (fun t ht => ?_) ?_
          · rw [plain_after] at ht
            exact List.mem_of_mem_drop ht
          · rw [plain_after, plain_after, landing_normalize h locals hl, plain_normalize h,
              List.map_drop]
        | leave => rfl

end Normal

/-- **The normal form keeps the flow of control.** For a well-labelled list, the normal form is well
labelled, so that every label it names has its statement and no jump in it is lost. Its plain
statements are those of the list in the same order, with new label numbers; from each of them control
comes to the same plain statements, or to the end, or leaves the routine; and so, whatever the
outcomes of the branches, a walk through the normal form executes the same statements as a walk
through the list. -/
theorem normalize_flow {stmts : List Stmt} (h : Labelled stmts) (locals : List Local) :
    Labelled (normalize stmts locals).stmts ∧
      plain (normalize stmts locals).stmts = (plain stmts).map (Stmt.relabel (newLabel stmts)) ∧
      (∀ k taken,
        continuation (normalize stmts locals).stmts k taken = continuation stmts k taken) ∧
      ∀ count outcomes, walk (normalize stmts locals).stmts count outcomes =
        (walk stmts count outcomes).map (Stmt.relabel (newLabel stmts)) :=
  ⟨(normal_normalize h locals).labelled, plain_normalize h locals, continuation_normalize h locals,
    fun count outcomes =>
      walkFrom_normalize h locals count outcomes (fun _ hs => hs) (plain_normalize h locals)⟩

/-- A loop with labels next to each other, labels that nothing needs, and no label that stays in
front. -/
def countdown : List Stmt :=
  [.label 6, .push (.const 3), .label 9, .label 4, .branch .pop (.jump 1), .label 2, .label 8,
    .jump 4, .label 7, .label 1, .ret (.const 0)]

theorem normalize_flow_countdown :
    Labelled countdown ∧ Labelled (normalize countdown []).stmts ∧
      walk (normalize countdown []).stmts 5 (· == 1) =
        [.push (.const 3), .branch .pop (.jump 3), .jump 1, .branch .pop (.jump 3),
          .ret (.const 0)] := by
  have hlabelled : Labelled countdown := by
    refine ⟨by decide, by decide, fun s hs cond guarded hg => ?_⟩
    subst hg
    obtain ⟨-, rfl⟩ : cond = .pop ∧ guarded = .jump 1 := by simpa [countdown] using hs
    exact Or.inl ⟨1, rfl⟩
  obtain ⟨hnormal, -, -, hwalk⟩ := normalize_flow hlabelled []
  refine ⟨hlabelled, hnormal, ?_⟩
  rw [hwalk]
  decide

end Body

end StoryVM
