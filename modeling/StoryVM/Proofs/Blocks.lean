import Mathlib.Tactic.Common
import StoryVM.Proofs.Layout
import StoryVM.Proofs.Reading

/-! # The blocks and edges of a body

The graph of a body is found in one pass over its statements, and this module says what it is without
that pass (`ofBody_exact`). For a body that starts with a label and whose labels are numbered in
statement order, the graph exists if branches guard jumps and returns only and jumps lead to labels
of the body. Its blocks are then the stretches from one label to the next, and its edges are the
jumps in a block, the ways out of the routine, and the step from the end of a block into the next.

* `Stmt.edges`, `edgesOf`: the edges that statements add, one after the other. These are the edges of
  the graph (`mem_edges_ofBody`).
* `edgesOf_append`: the edges of two stretches of statements, of which the second begins in the block
  where the first ends. So the edges that leave a block are those that its own statements add, and
  one for its end.
* `Cut`: a block cut out of a list of statements, with what stands before and behind it. The spans of
  the graph are cuts (`getElem?_spansOf`). -/

namespace StoryVM

theorem BlockId.ordered_eq_singleton {bs : List BlockId} {b : BlockId} (h : ∀ x, x ∈ bs ↔ x = b) :
    ordered bs = [b] := by
  have hsingle : ∀ cs : List BlockId, (∀ x ∈ cs, x = b) → ordered (b :: cs) = [b] := by
    intro cs hcs
    induction cs with
    | nil => rfl
    | cons c rest ih =>
      have hc : c = b := hcs c List.mem_cons_self
      have hrest := ih fun x hx => hcs x (List.mem_cons_of_mem c hx)
      have hself : b.before b = false := by cases b <;> simp [before]
      have hstep : ordered (b :: c :: rest) = insertOrdered b (ordered (c :: rest)) := rfl
      rw [hstep, hc, hrest, insertOrdered, hself]
      simp
  cases bs with
  | nil => cases (h b).mpr rfl
  | cons c rest =>
    rw [(h c).mp List.mem_cons_self]
    exact hsingle rest fun x hx => (h x).mp (List.mem_cons_of_mem c hx)

/-! ## The edges of statements -/

/-- **A point between two statements**: the block that the statement before it lies in, and whether
control falls from that statement into the next one. -/
structure Point where
  block : BlockId := .entry
  falls : Bool := true
  deriving DecidableEq, Repr

namespace Stmt

/-- The label that a statement jumps to, by itself or guarded by a branch. -/
def target? : Stmt → Option Label
  | jump l | branch _ (jump l) => some l
  | _ => none

/-- Whether a statement can leave the routine, by itself or guarded by a branch. -/
def isExit : Stmt → Bool
  | ret _ | quit | branch _ (ret _) => true
  | _ => false

/-- **Where control can go** from a statement, or from the one before it if this one is a label. -/
def targets (falls : Bool) : Stmt → List BlockId
  | label l => if falls then [.label l] else []
  | jump l | branch _ (jump l) => [.label l]
  | ret _ | quit | branch _ (ret _) => [.exit]
  | _ => []

/-- The point behind a statement. -/
def pass (p : Point) (s : Stmt) : Point :=
  ⟨(s.label?.map BlockId.label).getD p.block, !s.isTerminator⟩

/-- The edges that a statement adds. -/
def edges (p : Point) (s : Stmt) : List Edge := (s.targets p.falls).map (Edge.mk p.block)

theorem mem_names_of_target? {s : Stmt} {l : Label} (h : s.target? = some l) : l ∈ s.names := by
  cases s with
  | jump k =>
    cases h
    exact List.mem_singleton_self l
  | branch cond guarded =>
    cases guarded with
    | jump k =>
      cases h
      exact List.mem_singleton_self l
    | _ => cases h
  | _ => cases h

/-- A statement that is no label names no other label than the one it jumps to. -/
theorem target?_of_mem_names {s : Stmt} (hs : s.label? = none) (hg : s.GuardOk) {l : Label}
    (hl : l ∈ s.names) : s.target? = some l := by
  cases s with
  | label k => cases hs
  | jump k =>
    obtain rfl := List.mem_singleton.mp hl
    rfl
  | branch cond guarded =>
    rcases hg cond guarded rfl with ⟨k, rfl⟩ | ⟨value, rfl⟩
    · obtain rfl := List.mem_singleton.mp hl
      rfl
    · cases hl
  | _ => cases hl

theorem label_mem_targets {falls : Bool} {s : Stmt} {l : Label} :
    .label l ∈ s.targets falls ↔ (falls = true ∧ s = label l) ∨ s.target? = some l := by
  cases s with
  | label k => cases falls <;> simp [targets, target?, eq_comm]
  | branch cond guarded => cases guarded <;> simp [targets, target?, eq_comm]
  | _ => simp [targets, target?, eq_comm]

theorem exit_mem_targets {falls : Bool} {s : Stmt} :
    .exit ∈ s.targets falls ↔ s.isExit = true := by
  cases s with
  | label k => cases falls <;> simp [targets, isExit]
  | branch cond guarded => cases guarded <;> simp [targets, isExit]
  | _ => simp [targets, isExit]

theorem entry_not_mem_targets (falls : Bool) (s : Stmt) : .entry ∉ s.targets falls := by
  cases s with
  | label k => cases falls <;> simp [targets]
  | branch cond guarded => cases guarded <;> simp [targets]
  | _ => simp [targets]

theorem targets_of_label?_eq_none {s : Stmt} (h : s.label? = none) (falls : Bool) :
    s.targets falls = s.targets false := by
  cases s with
  | label l => cases h
  | branch cond guarded => cases guarded <;> rfl
  | _ => rfl

theorem pass_block_ne_entry {p : Point} (hp : p.block ≠ .entry) (s : Stmt) :
    (s.pass p).block ≠ .entry := by
  unfold pass
  cases s.label? with
  | none => exact hp
  | some l => exact nofun

end Stmt

/-! ## Numbered bodies -/

namespace Body

theorem Normal.labelCount_pos {b : Body} (h : b.Normal) : 0 < b.labelCount := by
  obtain ⟨rest, hstmts⟩ := h.head
  have hmem : 0 ∈ labelsOf b.stmts := mem_labelsOf.mpr (hstmts ▸ List.mem_cons_self)
  rwa [h.labels, List.mem_range] at hmem

/-- Behind the last label there is none. -/
theorem Normal.idxOf_labelCount {b : Body} (h : b.Normal) :
    b.stmts.idxOf (.label b.labelCount) = b.stmts.length := by
  refine List.idxOf_eq_length fun hmem => ?_
  rw [← mem_labelsOf, h.labels, List.mem_range] at hmem
  exact Nat.lt_irrefl _ hmem

theorem normal_of_numbered {b : Body} (hlabels : labelsOf b.stmts = List.range b.labelCount)
    (hhead : ∃ l rest, b.stmts = .label l :: rest)
    (hstmts : ∀ s ∈ b.stmts, s.GuardOk ∧ ∀ t, s.target? = some t → t < b.labelCount) :
    b.Normal where
  head := by
    obtain ⟨l, rest, hb⟩ := hhead
    have hfirst : (labelsOf b.stmts).head? = some l := by
      rw [hb]
      rfl
    rw [hlabels, List.head?_range] at hfirst
    split at hfirst
    · cases hfirst
    · obtain rfl := Option.some.inj hfirst
      exact ⟨rest, hb⟩
  labels := hlabels
  named s hs l hl := by
    obtain ⟨hguard, htarget⟩ := hstmts s hs
    cases hlabel : s.label? with
    | none => exact htarget l (Stmt.target?_of_mem_names hlabel hguard hl)
    | some k =>
      obtain rfl := Stmt.mem_names_of_label? hlabel
      obtain rfl := List.mem_singleton.mp hl
      rwa [← mem_labelsOf, hlabels, List.mem_range] at hs
  guards s hs := (hstmts s hs).1

end Body

namespace Graph

/-- The point behind statements. -/
def pointAfter (p : Point) (stmts : List Stmt) : Point := stmts.foldl Stmt.pass p

/-- **The edges that statements add**, from a point on. -/
def edgesOf (p : Point) : List Stmt → List Edge
  | [] => []
  | s :: rest => s.edges p ++ edgesOf (s.pass p) rest

theorem pointAfter_append (p : Point) (a b : List Stmt) :
    pointAfter p (a ++ b) = pointAfter (pointAfter p a) b := List.foldl_append

theorem edgesOf_append (p : Point) (a b : List Stmt) :
    edgesOf p (a ++ b) = edgesOf p a ++ edgesOf (pointAfter p a) b := by
  induction a generalizing p with
  | nil => rfl
  | cons s rest ih =>
    rw [List.cons_append, edgesOf, edgesOf, ih, List.append_assoc]
    rfl

/-! ## The pass over a body -/

theorem addEdge_ok {g g' : Graph} {source target : BlockId} (h : g.addEdge source target = .ok g') :
    g' = { g with edges := ⟨source, target⟩ :: g.edges } ∧ g.has target = true := by
  unfold addEdge at h
  split at h
  · cases h
  · next ht =>
    split at h
    · cases h
    · exact ⟨(Except.ok.inj h).symm, by simpa using ht⟩

theorem mapSpan_ok {g g' : Graph} {b : BlockId} {f : Span → Span} (h : g.mapSpan b f = .ok g') :
    g'.edges = g.edges ∧ g'.labelCount = g.labelCount ∧
      (b ≠ .entry → g'.entrySpan = g.entrySpan) := by
  unfold mapSpan at h
  split at h
  · cases h
    exact ⟨rfl, rfl, fun hb => absurd rfl hb⟩
  · split at h
    · cases h
      exact ⟨rfl, by simp [labelCount], fun _ => rfl⟩
    · cases h
  · cases h
    exact ⟨rfl, rfl, fun _ => rfl⟩

/-- The point that a scan has come to. -/
def Scan.point (s : Scan) : Point := ⟨s.current, s.falls⟩

/-- **What a scan has done** on its way from one point to another, over some statements. -/
structure Scan.Passes (s : Scan) (stmts : List Stmt) (s' : Scan) : Prop where
  point : s'.point = pointAfter s.point stmts
  edges : ∀ e, e ∈ s'.graph.edges ↔ e ∈ s.graph.edges ∨ e ∈ edgesOf s.point stmts
  labelCount : s'.graph.labelCount = s.graph.labelCount
  guards : ∀ t ∈ stmts, t.GuardOk
  targets : ∀ t ∈ stmts, ∀ l, t.target? = some l → l < s.graph.labelCount

/-- Visiting a statement that only adds an edge. -/
theorem Scan.visit_edge_ok {s s' : Scan} {target : BlockId}
    (h : (do return { s with graph := ← s.graph.addEdge s.current target } : Except Fault Scan) =
      .ok s') :
    s' = { s with graph := { s.graph with edges := ⟨s.current, target⟩ :: s.graph.edges } } ∧
      s.graph.has target = true := by
  obtain ⟨g, hg, hs'⟩ := bind_ok_iff.mp h
  obtain ⟨rfl, hhas⟩ := addEdge_ok hg
  exact ⟨(Except.ok.inj hs').symm, hhas⟩

theorem Scan.visit_ok {s s' : Scan} {pos : Nat} {stmt : Stmt} (h : s.visit pos stmt = .ok s') :
    s'.current = (stmt.pass s.point).block ∧ s'.graph.edges = stmt.edges s.point ++ s.graph.edges ∧
      s'.graph.labelCount = s.graph.labelCount ∧ s'.graph.entrySpan = s.graph.entrySpan ∧
      stmt.GuardOk ∧ ∀ l, stmt.target? = some l → l < s.graph.labelCount := by
  have hjump : ∀ {l : Label}, s.graph.has (.label l) = true → l < s.graph.labelCount :=
    fun h => of_decide_eq_true h
  cases stmt with
  | label l =>
    -- The block is opened in the same way, whether control falls into it or not.
    have hopen : ∀ {g : Graph}, (do
          let g ← g.mapSpan (.label l) fun _ => ⟨pos, pos⟩
          return { s with graph := g, current := .label l } : Except Fault Scan) = .ok s' →
        s'.current = .label l ∧ s'.graph.edges = g.edges ∧ s'.graph.labelCount = g.labelCount ∧
          s'.graph.entrySpan = g.entrySpan := by
      intro g hg
      obtain ⟨g', hg', hs'⟩ := bind_ok_iff.mp hg
      obtain rfl := Except.ok.inj hs'
      obtain ⟨hedges, hcount, hspan⟩ := mapSpan_ok hg'
      exact ⟨rfl, hedges, hcount, hspan (by rintro ⟨⟩)⟩
    have hedges : (Stmt.label l).edges s.point =
        if s.falls then [⟨s.current, .label l⟩] else [] := by
      unfold Stmt.edges Stmt.targets Scan.point
      cases s.falls <;> rfl
    rw [hedges]
    rw [Scan.visit] at h
    split at h
    · next hf =>
      obtain ⟨g, hg, h⟩ := bind_ok_iff.mp h
      obtain ⟨rfl, -⟩ := addEdge_ok hg
      obtain ⟨hcurrent, hedges, hcount, hspan⟩ := hopen h
      rw [if_pos hf]
      exact ⟨hcurrent, hedges, hcount, hspan, by rintro _ _ ⟨⟩, by rintro _ ⟨⟩⟩
    · next hf =>
      obtain ⟨hcurrent, hedges, hcount, hspan⟩ := hopen h
      rw [if_neg hf]
      exact ⟨hcurrent, hedges, hcount, hspan, by rintro _ _ ⟨⟩, by rintro _ ⟨⟩⟩
  | jump l =>
    obtain ⟨rfl, hhas⟩ := visit_edge_ok h
    refine ⟨rfl, rfl, rfl, rfl, by rintro _ _ ⟨⟩, ?_⟩
    rintro _ ⟨⟩
    exact hjump hhas
  | branch cond guarded =>
    cases guarded with
    | jump l =>
      obtain ⟨rfl, hhas⟩ := visit_edge_ok h
      refine ⟨rfl, rfl, rfl, rfl, ?_, ?_⟩
      · rintro _ _ ⟨⟩
        exact Or.inl ⟨l, rfl⟩
      · rintro _ ⟨⟩
        exact hjump hhas
    | ret value =>
      obtain ⟨rfl, -⟩ := visit_edge_ok h
      refine ⟨rfl, rfl, rfl, rfl, ?_, by rintro _ ⟨⟩⟩
      rintro _ _ ⟨⟩
      exact Or.inr ⟨value, rfl⟩
    | _ => cases h
  | ret _ | quit =>
    obtain ⟨rfl, -⟩ := visit_edge_ok h
    exact ⟨rfl, rfl, rfl, rfl, by rintro _ _ ⟨⟩, by rintro _ ⟨⟩⟩
  | _ =>
    cases h
    exact ⟨rfl, rfl, rfl, rfl, by rintro _ _ ⟨⟩, by rintro _ ⟨⟩⟩

theorem Scan.step_passes {s s' : Scan} {pos : Nat} {stmt : Stmt} (h : s.step pos stmt = .ok s') :
    s.Passes [stmt] s' ∧ (s'.current ≠ .entry → s'.graph.entrySpan = s.graph.entrySpan) := by
  obtain ⟨s₁, hvisit, h⟩ := bind_ok_iff.mp h
  obtain ⟨g, hg, h⟩ := bind_ok_iff.mp h
  obtain rfl := Except.ok.inj h
  obtain ⟨hcurrent, hedges, hcount, hspan, hguard, htarget⟩ := visit_ok hvisit
  obtain ⟨hedges', hcount', hspan'⟩ := mapSpan_ok hg
  refine ⟨⟨?_, fun e => ?_, hcount'.trans hcount, ?_, ?_⟩, fun hne => (hspan' hne).trans hspan⟩
  · exact congrArg (fun b => (⟨b, !stmt.isTerminator⟩ : Point)) hcurrent
  · rw [hedges', hedges, List.mem_append, edgesOf, edgesOf, List.append_nil]
    exact or_comm
  · simpa using hguard
  · simpa using htarget

theorem Scan.Passes.cons {s s₁ s' : Scan} {stmt : Stmt} {rest : List Stmt}
    (h : s.Passes [stmt] s₁) (h' : s₁.Passes rest s') : s.Passes (stmt :: rest) s' where
  point := by
    rw [h'.point, h.point]
    rfl
  edges e := by
    rw [h'.edges, h.edges, h.point, edgesOf, edgesOf, List.append_nil, edgesOf, List.mem_append,
      or_assoc]
    rfl
  labelCount := h'.labelCount.trans h.labelCount
  guards t ht := by
    rcases List.mem_cons.mp ht with rfl | ht
    · exact h.guards t List.mem_cons_self
    · exact h'.guards t ht
  targets t ht l hl := by
    rcases List.mem_cons.mp ht with rfl | ht
    · exact h.targets t List.mem_cons_self l hl
    · rw [← h.labelCount]
      exact h'.targets t ht l hl

/-- **A scan that succeeds** has added the edges of its statements, all of which lead to blocks of
the graph. -/
theorem Scan.run_passes {s s' : Scan} {pos : Nat} {stmts : List Stmt}
    (h : s.run pos stmts = .ok s') : s.Passes stmts s' := by
  induction stmts generalizing s pos with
  | nil =>
    obtain rfl := Except.ok.inj h
    exact ⟨rfl, by simp [edgesOf], rfl, nofun, nofun⟩
  | cons stmt rest ih =>
    obtain ⟨s₁, hstep, hrun⟩ := bind_ok_iff.mp h
    exact (step_passes hstep).1.cons (ih hrun)

/-- Once a block is open, no statement is taken into the entry. -/
theorem Scan.run_entrySpan {s s' : Scan} {pos : Nat} {stmts : List Stmt}
    (h : s.run pos stmts = .ok s') (hs : s.current ≠ .entry) :
    s'.graph.entrySpan = s.graph.entrySpan := by
  induction stmts generalizing s pos with
  | nil =>
    obtain rfl := Except.ok.inj h
    rfl
  | cons stmt rest ih =>
    obtain ⟨s₁, hstep, hrun⟩ := bind_ok_iff.mp h
    obtain ⟨hpasses, hspan⟩ := step_passes hstep
    have hne : s₁.current ≠ .entry := by
      have hblock : s₁.current = (stmt.pass s.point).block := congrArg Point.block hpasses.point
      rw [hblock]
      exact Stmt.pass_block_ne_entry hs stmt
    exact (ih hrun hne).trans (hspan hne)

/-- **The edges of the graph of a body** are those that its statements add, and one to the exit if
control falls off its end. -/
theorem mem_edges_ofBody {b : Body} {g : Graph} (h : ofBody b = .ok g) (e : Edge) :
    e ∈ g.edges ↔ e ∈ edgesOf {} b.stmts ∨
      (pointAfter {} b.stmts).falls = true ∧ e = ⟨(pointAfter {} b.stmts).block, .exit⟩ := by
  obtain ⟨s, hrun, h⟩ := bind_ok_iff.mp h
  have hpasses := Scan.run_passes hrun
  have hpoint : s.point = pointAfter {} b.stmts := hpasses.point
  have hedges : e ∈ s.graph.edges ↔ e ∈ edgesOf {} b.stmts := by
    rw [hpasses.edges]
    exact ⟨fun he => he.resolve_left nofun, Or.inr⟩
  rw [← hpoint, ← hedges]
  split at h
  · next hf =>
    obtain ⟨rfl, -⟩ := addEdge_ok h
    rw [List.mem_cons, or_comm]
    exact or_congr_right ⟨fun he => ⟨hf, he⟩, fun he => he.2⟩
  · next hf =>
    obtain rfl := Except.ok.inj h
    exact ⟨Or.inl, fun he => he.resolve_right fun hend => hf hend.1⟩

theorem labelCount_of_ofBody {b : Body} {g : Graph} (h : ofBody b = .ok g) :
    g.labelCount = b.labelCount := by
  obtain ⟨s, hrun, h⟩ := bind_ok_iff.mp h
  have hcount : s.graph.labelCount = b.labelCount := by
    rw [(Scan.run_passes hrun).labelCount, labelCount, Array.size_replicate]
  split at h
  · obtain ⟨rfl, -⟩ := addEdge_ok h
    exact hcount
  · obtain rfl := Except.ok.inj h
    exact hcount

/-- **What a body needs to have a graph.** -/
theorem guards_of_ofBody {b : Body} {g : Graph} (h : ofBody b = .ok g) :
    ∀ s ∈ b.stmts, s.GuardOk ∧ ∀ l, s.target? = some l → l < b.labelCount := by
  obtain ⟨s, hrun, -⟩ := bind_ok_iff.mp h
  have hpasses := Scan.run_passes hrun
  intro t ht
  refine ⟨hpasses.guards t ht, fun l hl => ?_⟩
  have hlt := hpasses.targets t ht l hl
  rwa [labelCount, Array.size_replicate] at hlt

/-! ## Where edges come from -/

/-- A point behind statements lies in the block before them or in one that they open. -/
theorem pointAfter_block (p : Point) (stmts : List Stmt) :
    (pointAfter p stmts).block = p.block ∨
      ∃ l ∈ labelsOf stmts, (pointAfter p stmts).block = .label l := by
  induction stmts generalizing p with
  | nil => exact Or.inl rfl
  | cons s rest ih =>
    have hcons : pointAfter p (s :: rest) = pointAfter (s.pass p) rest := rfl
    rw [hcons, labelsOf_cons]
    rcases ih (s.pass p) with hblock | ⟨l, hl, hblock⟩
    · cases hs : s.label? with
      | none => exact Or.inl (by simpa [Stmt.pass, hs] using hblock)
      | some l => exact Or.inr ⟨l, by simp, by simpa [Stmt.pass, hs] using hblock⟩
    · exact Or.inr ⟨l, List.mem_append_right _ hl, hblock⟩

/-- An edge leaves the block before the statements or one that they open. -/
theorem source_of_mem_edgesOf {p : Point} {stmts : List Stmt} {e : Edge}
    (h : e ∈ edgesOf p stmts) :
    e.source = p.block ∨ ∃ l ∈ labelsOf stmts, e.source = .label l := by
  induction stmts generalizing p with
  | nil => cases h
  | cons s rest ih =>
    rw [labelsOf_cons]
    rcases List.mem_append.mp h with h | h
    · obtain ⟨t, -, rfl⟩ := List.mem_map.mp h
      exact Or.inl rfl
    · rcases ih h with hblock | ⟨l, hl, hblock⟩
      · cases hs : s.label? with
        | none => exact Or.inl (by simpa [Stmt.pass, hs] using hblock)
        | some l => exact Or.inr ⟨l, by simp, by simpa [Stmt.pass, hs] using hblock⟩
      · exact Or.inr ⟨l, List.mem_append_right _ hl, hblock⟩

theorem target_of_mem_edgesOf {p : Point} {stmts : List Stmt} {e : Edge}
    (h : e ∈ edgesOf p stmts) : e.target ≠ .entry := by
  induction stmts generalizing p with
  | nil => cases h
  | cons s rest ih =>
    rcases List.mem_append.mp h with h | h
    · obtain ⟨t, ht, rfl⟩ := List.mem_map.mp h
      rintro rfl
      exact Stmt.entry_not_mem_targets _ s ht
    · exact ih h

/-- **Statements without a label** stay in their block, and their edges are the ways from one of
them. -/
theorem edgesOf_of_labelsOf_eq_nil {p : Point} {stmts : List Stmt} (h : labelsOf stmts = []) :
    (pointAfter p stmts).block = p.block ∧
      ∀ e, e ∈ edgesOf p stmts ↔ e.source = p.block ∧ ∃ s ∈ stmts, e.target ∈ s.targets false := by
  induction stmts generalizing p with
  | nil => exact ⟨rfl, by simp [edgesOf]⟩
  | cons s rest ih =>
    rw [labelsOf_cons, List.append_eq_nil_iff] at h
    have hs : s.label? = none := by simpa using h.1
    have hpass : (s.pass p).block = p.block := by simp [Stmt.pass, hs]
    have htargets := Stmt.targets_of_label?_eq_none hs p.falls
    obtain ⟨hblock, hedges⟩ := ih (p := s.pass p) h.2
    refine ⟨hblock.trans hpass, fun e => ?_⟩
    have hmem : e ∈ s.edges p ↔ e.source = p.block ∧ e.target ∈ s.targets false := by
      rw [Stmt.edges, htargets, List.mem_map]
      constructor
      · rintro ⟨t, ht, rfl⟩
        exact ⟨rfl, ht⟩
      · rintro ⟨hsource, ht⟩
        exact ⟨e.target, ht, by rw [← hsource]⟩
    rw [edgesOf, List.mem_append, hmem, hedges, hpass]
    simp only [List.mem_cons, exists_eq_or_imp]
    exact and_or_left.symm

/-- Whether control falls out of statements is up to the last of them. -/
theorem pointAfter_falls {p : Point} {stmts : List Stmt} {last : Stmt}
    (h : stmts.getLast? = some last) : (pointAfter p stmts).falls = !last.isTerminator := by
  obtain ⟨init, rfl⟩ := List.getLast?_eq_some_iff.mp h
  rw [pointAfter_append]
  rfl

/-! ## Cutting a block out -/

/-- **The block of a label, cut out of statements**: what stands before it, its statements behind the
label, and what stands behind it. -/
structure Cut (stmts : List Stmt) (i : Nat) (before inner after : List Stmt) : Prop where
  eq : stmts = before ++ .label i :: inner ++ after
  earlier : labelsOf before = List.range i
  inside : labelsOf inner = []
  next : ∀ s rest, after = s :: rest → s = .label (i + 1)
  later : ∀ l ∈ labelsOf after, i < l

/-- **The blocks of numbered statements** are cuts, of which there is one for each label. -/
theorem getElem?_spansOf {stmts before inner rest : List Stmt} {k n : Nat}
    (heq : stmts = before ++ .label k :: inner ++ rest) (hbefore : labelsOf before = List.range k)
    (hinner : labelsOf inner = []) (hrest : labelsOf rest = List.range' (k + 1) n) :
    (spansOf before.length (before.length + (inner.length + 1)) rest).length = n + 1 ∧
      ∀ j ≤ n, ∃ before' inner' after, Cut stmts (k + j) before' inner' after ∧
        (spansOf before.length (before.length + (inner.length + 1)) rest)[j]? =
          some ⟨before'.length, before'.length + (inner'.length + 1)⟩ := by
  induction rest generalizing before inner k n with
  | nil =>
    obtain rfl : n = 0 := by simpa [labelsOf] using hrest
    refine ⟨rfl, fun j hj => ?_⟩
    obtain rfl : j = 0 := by omega
    exact ⟨before, inner, [], ⟨heq, hbefore, hinner, by rintro _ _ ⟨⟩, by rintro _ ⟨⟩⟩, rfl⟩
  | cons s rest ih =>
    cases hs : s.label? with
    | none =>
      rw [labelsOf_cons, hs] at hrest
      have hinner' : labelsOf (inner ++ [s]) = [] := by
        rw [labelsOf_append, hinner, labelsOf_cons, hs]
        rfl
      rw [spansOf_cons_of_label?_eq_none hs]
      simpa [Nat.add_assoc] using ih (by simp [heq]) hbefore hinner' hrest
    | some l =>
      obtain rfl := Stmt.mem_names_of_label? hs
      cases n with
      | zero => simp [labelsOf_cons, hs] at hrest
      | succ n =>
        simp only [labelsOf_cons, hs, Option.toList_some, List.singleton_append, List.range'_succ,
          List.cons.injEq] at hrest
        obtain ⟨rfl, hrest⟩ := hrest
        have hbefore' : labelsOf (before ++ .label k :: inner) = List.range (k + 1) := by
          rw [labelsOf_append, labelsOf_cons, hinner, hbefore, List.range_succ]
          rfl
        have heq' : stmts = (before ++ .label k :: inner) ++ .label (k + 1) :: [] ++ rest := by
          simp [heq]
        obtain ⟨hlength, hcut⟩ := ih heq' hbefore' rfl hrest
        simp only [List.length_append, List.length_cons, List.length_nil] at hlength hcut
        rw [spansOf]
        refine ⟨by simpa using hlength, fun j hj => ?_⟩
        cases j with
        | zero =>
          refine ⟨before, inner, .label (k + 1) :: rest, ⟨heq, hbefore, hinner, ?_, ?_⟩, rfl⟩
          · rintro _ _ ⟨⟩
            rfl
          · intro l hl
            rw [labelsOf_cons, hrest, hs, Option.toList_some, List.singleton_append, List.mem_cons,
              List.mem_range'_1] at hl
            change k < l
            rcases hl with hl | hl
            · exact Nat.lt_of_succ_le (Nat.le_of_eq hl.symm)
            · exact Nat.lt_of_succ_lt (Nat.lt_of_succ_le hl.1)
        | succ j =>
          obtain ⟨before', inner', after, hc, hget⟩ := hcut j (by omega)
          refine ⟨before', inner', after, ?_, by simpa using hget⟩
          rwa [show k + (j + 1) = k + 1 + j by omega]

namespace Cut

variable {stmts before inner after : List Stmt} {i : Nat}

theorem not_mem_before (h : Cut stmts i before inner after) {j : Nat} (hj : i ≤ j) :
    Stmt.label j ∉ before := by
  rw [← mem_labelsOf, h.earlier, List.mem_range]
  exact Nat.not_lt.mpr hj

/-- A block begins where its label stands. -/
theorem idxOf_label (h : Cut stmts i before inner after) :
    stmts.idxOf (.label i) = before.length := by
  rw [h.eq, List.append_assoc, List.idxOf_append_of_notMem (h.not_mem_before le_rfl),
    List.cons_append, List.idxOf_cons_self, Nat.add_zero]

/-- A block ends where the next label stands, or with the last statement. -/
theorem idxOf_next (h : Cut stmts i before inner after) :
    stmts.idxOf (.label (i + 1)) = before.length + (inner.length + 1) := by
  have hfront : Stmt.label (i + 1) ∉ before ++ .label i :: inner := by
    have hbefore := h.not_mem_before (Nat.le_succ i)
    have hinner : Stmt.label (i + 1) ∉ inner := by
      rw [← mem_labelsOf, h.inside]
      exact List.not_mem_nil
    simp [hbefore, hinner]
  have hafter : after.idxOf (.label (i + 1)) = 0 := by
    cases hafter : after with
    | nil => rfl
    | cons s rest => rw [h.next s rest hafter, List.idxOf_cons_self]
  rw [h.eq, List.idxOf_append_of_notMem hfront, hafter, List.length_append, List.length_cons,
    Nat.add_zero]

/-- Nothing stands behind the block of the last label. -/
theorem after_eq_nil_iff (h : Cut stmts i before inner after) {n : Nat}
    (hn : labelsOf stmts = List.range n) : after = [] ↔ i + 1 = n := by
  have hsplit : labelsOf stmts = List.range (i + 1) ++ labelsOf after := by
    rw [h.eq, labelsOf_append, labelsOf_append, labelsOf_cons, h.inside, h.earlier, List.range_succ]
    rfl
  have hcount : n = i + 1 + (labelsOf after).length := by
    have hlength := congrArg List.length (hn.symm.trans hsplit)
    rwa [List.length_append, List.length_range, List.length_range] at hlength
  constructor
  · rintro rfl
    exact hcount.symm
  · intro hi
    cases hafter : after with
    | nil => rfl
    | cons s rest =>
      rw [hafter, h.next s rest hafter, labelsOf_cons] at hcount
      simp [Stmt.label?] at hcount
      omega

/-- Up to its end, a block has the edges of its own statements. -/
theorem mem_edgesOf_front (h : Cut stmts i before inner after) (target : BlockId) :
    ⟨.label i, target⟩ ∈ edgesOf {} (before ++ .label i :: inner) ↔
      ∃ s ∈ inner, target ∈ s.targets false := by
  have hne : ∀ l ∈ labelsOf before, BlockId.label i ≠ .label l := by
    intro l hl heq
    rw [h.earlier, List.mem_range] at hl
    cases heq
    exact Nat.lt_irrefl _ hl
  have hbefore : ⟨.label i, target⟩ ∉ edgesOf {} before := by
    intro hmem
    rcases source_of_mem_edgesOf hmem with hsource | ⟨l, hl, hsource⟩
    · cases hsource
    · exact hne l hl hsource
  have hlabel : ⟨.label i, target⟩ ∉ (Stmt.label i).edges (pointAfter {} before) := by
    intro hmem
    obtain ⟨t, -, heq⟩ := List.mem_map.mp hmem
    have hsource : (pointAfter {} before).block = .label i := congrArg Edge.source heq
    rcases pointAfter_block {} before with hblock | ⟨l, hl, hblock⟩
    · cases hblock.symm.trans hsource
    · exact hne l hl (hsource.symm.trans hblock)
  rw [edgesOf_append, List.mem_append, edgesOf, List.mem_append, or_iff_right hbefore,
    or_iff_right hlabel, (edgesOf_of_labelsOf_eq_nil h.inside).2]
  exact and_iff_right rfl

/-- **The end of a block** has one edge if control falls off it, to the block that follows. -/
theorem mem_edgesOf_back (h : Cut stmts i before inner after) {p : Point} (hp : p.block = .label i)
    (target : BlockId) :
    (⟨.label i, target⟩ ∈ edgesOf p after ∨ (pointAfter p after).falls = true ∧
        (⟨.label i, target⟩ : Edge) = ⟨(pointAfter p after).block, .exit⟩) ↔
      p.falls = true ∧ target = if after = [] then .exit else .label (i + 1) := by
  cases hafter : after with
  | nil =>
    have hnil : ⟨.label i, target⟩ ∉ edgesOf p [] := List.not_mem_nil
    rw [or_iff_right hnil, if_pos rfl, pointAfter, List.foldl_nil, hp, Edge.mk.injEq]
    exact and_congr_right fun _ => and_iff_right rfl
  | cons s rest =>
    obtain rfl := h.next s rest hafter
    -- From the next label on, control is in later blocks.
    have hlater : ∀ b : BlockId, b = .label (i + 1) ∨ (∃ l ∈ labelsOf rest, b = .label l) →
        b ≠ .label i := by
      rintro _ hb rfl
      rcases hb with hb | ⟨l, hl, hb⟩
      · exact Nat.ne_of_lt (Nat.lt_succ_self i) (BlockId.label.inj hb)
      · refine Nat.ne_of_lt (h.later l ?_) (BlockId.label.inj hb)
        rw [hafter, labelsOf_cons]
        exact List.mem_append_right _ hl
    have hedges : ⟨.label i, target⟩ ∉ edgesOf ((Stmt.label (i + 1)).pass p) rest := fun hmem =>
      hlater _ (source_of_mem_edgesOf hmem) rfl
    have hend : (⟨.label i, target⟩ : Edge) ≠
        ⟨(pointAfter p (.label (i + 1) :: rest)).block, .exit⟩ := fun heq =>
      hlater _ (pointAfter_block ((Stmt.label (i + 1)).pass p) rest) (congrArg Edge.source heq).symm
    have hlabel : ⟨.label i, target⟩ ∈ (Stmt.label (i + 1)).edges p ↔
        p.falls = true ∧ target = .label (i + 1) := by
      rw [Stmt.edges, Stmt.targets, hp]
      cases p.falls <;> simp
    rw [edgesOf, List.mem_append, or_iff_left hedges, or_iff_left (fun hfalls => hend hfalls.2),
      hlabel, if_neg (List.cons_ne_nil _ _)]

end Cut

/-! ## The graph of a numbered body -/

/-- The statements of a block. -/
def stmtsOf (g : Graph) (b : Body) (id : BlockId) : List Stmt :=
  (b.stmts.drop (g.span id).first).take ((g.span id).last - (g.span id).first)

/-- Whether control falls off the end of statements: the last one is no jump, return or quit. -/
def FallsOff (block : List Stmt) : Prop := ∃ last ∈ block.getLast?, last.isTerminator = false

theorem fallsOff_iff {p : Point} {s : Stmt} {rest : List Stmt} :
    FallsOff (s :: rest) ↔ (pointAfter p (s :: rest)).falls = true := by
  obtain ⟨last, hlast⟩ : ∃ last, (s :: rest).getLast? = some last :=
    ⟨_, List.getLast?_eq_some_getLast (List.cons_ne_nil s rest)⟩
  rw [pointAfter_falls hlast, FallsOff, hlast]
  simp

/-- **The blocks and edges of a body**, said of its statements only. -/
structure Exact (g : Graph) (b : Body) : Prop where
  /-- There is a block for each label, and an entry and an exit. -/
  blockIds : g.blockIds = .entry :: ((List.range b.labelCount).map .label ++ [.exit])
  /-- The entry has no statements. -/
  entry : (g.span .entry).isEmpty = true
  /-- The exit has no statements. -/
  exit : (g.span .exit).isEmpty = true
  /-- A label's block begins with its label statement. -/
  starts : ∀ i < b.labelCount, b.stmts[(g.span (.label i)).first]? = some (.label i)
  nonempty : ∀ i < b.labelCount, (g.span (.label i)).first < (g.span (.label i)).last
  first : (g.span (.label 0)).first = 0
  contiguous : ∀ i, i + 1 < b.labelCount →
    (g.span (.label i)).last = (g.span (.label (i + 1))).first
  last : (g.span (.label (b.labelCount - 1))).last = b.stmts.length
  /-- The label blocks, in order, hold all statements. -/
  partition : (List.range b.labelCount).flatMap (fun i => g.stmtsOf b (.label i)) = b.stmts
  successors_entry : g.successors .entry = [.label 0]
  predecessors_entry : g.predecessors .entry = []
  successors_exit : g.successors .exit = []
  dual : ∀ x y, x ∈ g.predecessors y ↔ y ∈ g.successors x
  /-- A label's block is reached from the blocks with a jump to it, guarded or not, and from the
  block before it if control falls off that one. -/
  toLabel : ∀ i < b.labelCount, ∀ t, .label t ∈ g.successors (.label i) ↔
    (∃ s ∈ g.stmtsOf b (.label i), s.target? = some t) ∨
      t = i + 1 ∧ t < b.labelCount ∧ FallsOff (g.stmtsOf b (.label i))
  /-- The exit is reached from the blocks with a return, guarded or not, or a quit, and from the last
  block if control falls off it. -/
  toExit : ∀ i < b.labelCount, .exit ∈ g.successors (.label i) ↔
    (∃ s ∈ g.stmtsOf b (.label i), s.isExit = true) ∨
      i + 1 = b.labelCount ∧ FallsOff (g.stmtsOf b (.label i))

theorem mem_successors {g : Graph} {x y : BlockId} : y ∈ g.successors x ↔ ⟨x, y⟩ ∈ g.edges := by
  rw [successors, BlockId.mem_ordered]
  constructor
  · intro h
    obtain ⟨e, he, rfl⟩ := List.mem_map.mp h
    obtain ⟨hmem, hsource⟩ := List.mem_filter.mp he
    rwa [← of_decide_eq_true hsource]
  · intro h
    exact List.mem_map.mpr ⟨⟨x, y⟩, List.mem_filter.mpr ⟨h, decide_eq_true rfl⟩, rfl⟩

theorem mem_predecessors {g : Graph} {x y : BlockId} : x ∈ g.predecessors y ↔ ⟨x, y⟩ ∈ g.edges := by
  rw [predecessors, BlockId.mem_ordered]
  constructor
  · intro h
    obtain ⟨e, he, rfl⟩ := List.mem_map.mp h
    obtain ⟨hmem, htarget⟩ := List.mem_filter.mp he
    rwa [← of_decide_eq_true htarget]
  · intro h
    exact List.mem_map.mpr ⟨⟨x, y⟩, List.mem_filter.mpr ⟨h, decide_eq_true rfl⟩, rfl⟩

section Normal
variable {b : Body} {g : Graph} (hb : b.Normal) (hg : ofBody b = .ok g)
include hb hg

/-- **The blocks of the graph** are cuts of the body, of which there is one for each label. -/
theorem exists_cut {i : Nat} (hi : i < b.labelCount) :
    ∃ before inner after, Cut b.stmts i before inner after ∧
      g.span (.label i) = ⟨before.length, before.length + (inner.length + 1)⟩ := by
  obtain ⟨rest, hstmts⟩ := hb.head
  obtain ⟨g', hg', hspans⟩ := ofBody_normal hb hstmts
  obtain rfl : g = g' := Except.ok.inj (hg.symm.trans hg')
  have hlabels := hb.labels
  rw [hstmts, labelsOf_cons] at hlabels
  obtain ⟨n, hn⟩ : ∃ n, b.labelCount = n + 1 := Nat.exists_eq_succ_of_ne_zero (by omega)
  have hrest : labelsOf rest = List.range' 1 n := by
    simpa [hn, List.range_eq_range', List.range'_succ, Stmt.label?] using hlabels
  have hsplit : b.stmts = [] ++ .label 0 :: [] ++ rest := hstmts
  obtain ⟨-, hcut⟩ := getElem?_spansOf hsplit rfl rfl hrest
  obtain ⟨before, inner, after, hc, hget⟩ := hcut i (by omega)
  refine ⟨before, inner, after, by simpa using hc, ?_⟩
  have hspan : g.spans[i]? = some ⟨before.length, before.length + (inner.length + 1)⟩ := by
    rw [← Array.getElem?_toList, hspans]
    exact hget
  rw [span, Array.getD_eq_getD_getElem?, hspan]
  rfl

theorem span_label {i : Nat} (hi : i < b.labelCount) :
    g.span (.label i) = ⟨b.stmts.idxOf (.label i), b.stmts.idxOf (.label (i + 1))⟩ := by
  obtain ⟨before, inner, after, hcut, hspan⟩ := exists_cut hb hg hi
  rw [hspan, hcut.idxOf_label, hcut.idxOf_next]

theorem flatMap_stmtsOf {n : Nat} (hn : n ≤ b.labelCount) :
    (List.range n).flatMap (fun i => g.stmtsOf b (.label i)) =
      b.stmts.take (b.stmts.idxOf (.label n)) := by
  induction n with
  | zero =>
    obtain ⟨rest, hstmts⟩ := hb.head
    rw [hstmts, List.idxOf_cons_self]
    rfl
  | succ n ih =>
    obtain ⟨before, inner, after, hcut, -⟩ := exists_cut hb hg (i := n) hn
    have hle : b.stmts.idxOf (.label n) ≤ b.stmts.idxOf (.label (n + 1)) := by
      rw [hcut.idxOf_label, hcut.idxOf_next]
      omega
    rw [List.range_succ, List.flatMap_append, ih (by omega), List.flatMap_singleton, stmtsOf,
      span_label hb hg hn, ← List.take_add, Nat.add_sub_cancel' hle]

/-- The statements from the entry on leave it for block 0, and never come back. -/
theorem mem_edges_entry (target : BlockId) : ⟨.entry, target⟩ ∈ g.edges ↔ target = .label 0 := by
  obtain ⟨rest, hstmts⟩ := hb.head
  have hne : ∀ x : BlockId, x = .label 0 ∨ (∃ l ∈ labelsOf rest, x = .label l) → x ≠ .entry := by
    rintro _ (rfl | ⟨l, -, rfl⟩) <;> exact nofun
  have hedges : ⟨.entry, target⟩ ∉ edgesOf ⟨.label 0, true⟩ rest := fun hmem =>
    hne _ (source_of_mem_edgesOf hmem) rfl
  have hend : (⟨.entry, target⟩ : Edge) ≠ ⟨(pointAfter {} b.stmts).block, .exit⟩ := by
    intro heq
    rw [hstmts] at heq
    exact hne _ (pointAfter_block ⟨.label 0, true⟩ rest) (congrArg Edge.source heq).symm
  rw [mem_edges_ofBody hg, or_iff_left (fun hfalls => hend hfalls.2), hstmts, edgesOf,
    List.mem_append]
  exact (or_iff_left hedges).trans (by simp [Stmt.edges, Stmt.targets])

theorem successors_entry : g.successors .entry = [.label 0] :=
  BlockId.ordered_eq_singleton fun x =>
    BlockId.mem_ordered.symm.trans (mem_successors.trans (mem_edges_entry hb hg x))

/-- **The edges that leave a label's block** are the ways from its statements, and one to the block
that follows if control falls off its end. -/
theorem mem_edges_label {i : Nat} (hi : i < b.labelCount) (target : BlockId) :
    ⟨.label i, target⟩ ∈ g.edges ↔
      (∃ s ∈ g.stmtsOf b (.label i), target ∈ s.targets false) ∨
        FallsOff (g.stmtsOf b (.label i)) ∧ target = g.fallThrough (.label i) := by
  obtain ⟨before, inner, after, hcut, hspan⟩ := exists_cut hb hg hi
  have hstmts : g.stmtsOf b (.label i) = .label i :: inner := by
    rw [stmtsOf, hspan, hcut.eq, List.append_assoc, List.drop_left, Nat.add_sub_cancel_left]
    simp
  have hblock : (pointAfter {} (before ++ .label i :: inner)).block = .label i := by
    rw [pointAfter_append]
    exact (edgesOf_of_labelsOf_eq_nil hcut.inside).1
  have hfalls : (pointAfter {} (before ++ .label i :: inner)).falls = true ↔
      FallsOff (.label i :: inner) := by
    rw [pointAfter_append, fallsOff_iff]
  have hnext : g.fallThrough (.label i) = if after = [] then .exit else .label (i + 1) := by
    have hlast := hcut.after_eq_nil_iff hb.labels
    rw [fallThrough, labelCount_of_ofBody hg]
    by_cases hafter : after = []
    · rw [if_pos hafter, if_neg (by have := hlast.mp hafter; omega)]
    · rw [if_neg hafter, if_pos (by have := mt hlast.mpr hafter; omega)]
  rw [mem_edges_ofBody hg, hcut.eq, edgesOf_append, pointAfter_append _ (before ++ .label i :: inner),
    List.mem_append, or_assoc, hcut.mem_edgesOf_front, hcut.mem_edgesOf_back hblock, hfalls, hnext,
    hstmts]
  simp [Stmt.targets]

theorem entrySpan_eq : g.entrySpan = {} := by
  obtain ⟨rest, hstmts⟩ := hb.head
  obtain ⟨s, hrun, hend⟩ := bind_ok_iff.mp hg
  rw [hstmts] at hrun
  obtain ⟨s₁, hstep, hrun⟩ := bind_ok_iff.mp hrun
  obtain ⟨hpasses, hfirst⟩ := Scan.step_passes hstep
  have hne : s₁.current ≠ .entry := by
    have hcurrent : s₁.current = .label 0 := congrArg Point.block hpasses.point
    rw [hcurrent]
    exact nofun
  have hspan : s.graph.entrySpan = {} := (Scan.run_entrySpan hrun hne).trans (hfirst hne)
  split at hend
  · obtain ⟨rfl, -⟩ := addEdge_ok hend
    exact hspan
  · obtain rfl := Except.ok.inj hend
    exact hspan

theorem exact_of_normal : g.Exact b where
  blockIds := by rw [blockIds, labelCount_of_ofBody hg]
  entry := by rw [span, entrySpan_eq hb hg]; rfl
  exit := rfl
  starts i hi := by
    obtain ⟨before, inner, after, hcut, hspan⟩ := exists_cut hb hg hi
    rw [hspan, hcut.eq]
    simp
  nonempty i hi := by
    obtain ⟨before, inner, after, -, hspan⟩ := exists_cut hb hg hi
    rw [hspan]
    exact Nat.lt_add_of_pos_right (Nat.succ_pos _)
  first := by
    obtain ⟨rest, hstmts⟩ := hb.head
    rw [span_label hb hg hb.labelCount_pos, hstmts, List.idxOf_cons_self]
  contiguous i hi := by
    rw [span_label hb hg hi, span_label hb hg (by omega)]
  last := by
    have hpos := hb.labelCount_pos
    rw [span_label hb hg (by omega), Nat.sub_add_cancel hpos]
    exact hb.idxOf_labelCount
  partition := by
    rw [flatMap_stmtsOf hb hg le_rfl, hb.idxOf_labelCount, List.take_length]
  successors_entry := successors_entry hb hg
  predecessors_entry := by
    refine List.eq_nil_iff_forall_not_mem.mpr fun x hx => ?_
    rcases (mem_edges_ofBody hg _).mp (mem_predecessors.mp hx) with hmem | ⟨-, heq⟩
    · exact target_of_mem_edgesOf hmem rfl
    · cases congrArg Edge.target heq
  successors_exit := by
    refine List.eq_nil_iff_forall_not_mem.mpr fun x hx => ?_
    rcases (mem_edges_ofBody hg _).mp (mem_successors.mp hx) with hmem | ⟨-, heq⟩
    · rcases source_of_mem_edgesOf hmem with hsource | ⟨l, -, hsource⟩ <;> cases hsource
    · have hsource : BlockId.exit = (pointAfter {} b.stmts).block := congrArg Edge.source heq
      rcases pointAfter_block {} b.stmts with hblock | ⟨l, -, hblock⟩
      · cases hsource.trans hblock
      · cases hsource.trans hblock
  dual x y := mem_predecessors.trans mem_successors.symm
  toLabel i hi t := by
    have hnext : .label t = g.fallThrough (.label i) ↔ t = i + 1 ∧ t < b.labelCount := by
      rw [fallThrough, labelCount_of_ofBody hg]
      split
      · next hlt => exact ⟨fun h => by cases h; exact ⟨rfl, hlt⟩, fun h => by rw [h.1]⟩
      · next hge => exact ⟨nofun, fun h => absurd (h.1 ▸ h.2) hge⟩
    have hjump : (∃ s ∈ g.stmtsOf b (.label i), .label t ∈ s.targets false) ↔
        ∃ s ∈ g.stmtsOf b (.label i), s.target? = some t := by
      simp [Stmt.label_mem_targets]
    rw [mem_successors, mem_edges_label hb hg hi, hjump, hnext, and_comm, and_assoc]
  toExit i hi := by
    have hnext : .exit = g.fallThrough (.label i) ↔ i + 1 = b.labelCount := by
      rw [fallThrough, labelCount_of_ofBody hg]
      split
      · next hlt => exact ⟨nofun, fun h => absurd (h ▸ hlt) (Nat.lt_irrefl _)⟩
      · next hge => exact ⟨fun _ => by omega, fun _ => rfl⟩
    rw [mem_successors, mem_edges_label hb hg hi, hnext]
    simp [Stmt.exit_mem_targets, and_comm]

end Normal

/-- **The graph of a numbered body** exists if and only if branches guard jumps and returns only and
jumps lead to labels of the body, and then it is exact. -/
theorem ofBody_exact {b : Body} (hlabels : labelsOf b.stmts = List.range b.labelCount)
    (hhead : ∃ l rest, b.stmts = .label l :: rest) :
    ((∃ g, ofBody b = .ok g) ↔
        ∀ s ∈ b.stmts, s.GuardOk ∧ ∀ t, s.target? = some t → t < b.labelCount) ∧
      ∀ g, ofBody b = .ok g → g.Exact b := by
  refine ⟨⟨fun ⟨g, hg⟩ => guards_of_ofBody hg, fun hstmts => ?_⟩, fun g hg => ?_⟩
  · have hb := Body.normal_of_numbered hlabels hhead hstmts
    obtain ⟨rest, hrest⟩ := hb.head
    obtain ⟨g, hg, -⟩ := ofBody_normal hb hrest
    exact ⟨g, hg⟩
  · exact exact_of_normal (Body.normal_of_numbered hlabels hhead (guards_of_ofBody hg)) hg

/-- A body with a loop, a way out of the loop, code behind a terminator and two labels in a row. -/
def looping : Body where
  stmts := [.label 0, .branch (.const 1) (.ret (.const 0)), .jump 0, .push (.const 2), .label 1,
    .label 2, .branch (.const 3) (.jump 1), .quit]
  labelCount := 3
  locals := []

theorem ofBody_exact_looping :
    labelsOf looping.stmts = List.range looping.labelCount ∧
      (∃ l rest, looping.stmts = .label l :: rest) ∧
      (∀ s ∈ looping.stmts, s.GuardOk ∧ ∀ t, s.target? = some t → t < looping.labelCount) ∧
      ∃ g, ofBody looping = .ok g ∧ g.Exact looping := by
  have hhead : ∃ l rest, looping.stmts = .label l :: rest := ⟨0, _, rfl⟩
  have hgraph : ∃ g, ofBody looping = .ok g := ⟨_, rfl⟩
  obtain ⟨hexists, hexact⟩ := ofBody_exact (b := looping) rfl hhead
  obtain ⟨g, hg⟩ := hgraph
  exact ⟨rfl, hhead, hexists.mp ⟨g, hg⟩, g, hg, hexact g hg⟩

end Graph

end StoryVM
