import Mathlib.Tactic.Common
import StoryVM.Proofs.NormalForm
import StoryVM.Routine

/-! # The layout of a normal body

The program of a normal body is the operations of its statements one after the other, and the block
of a label starts where the operations of its label statement stand (`ofBody_normal`).

* `flatten_eq`: the operations of an expression are those of its operands, then its own.
* `codeOf`, `startsOf`: the operations of a list of statements and the positions of its labels.
* `spansOf`: the blocks that one pass over the statements finds (`Scan.run_spans`); laying them out
  in order lays out all statements (`addBlocks_spansOf`). -/

namespace StoryVM

/-! ## Expressions -/

namespace Task

theorem run_eq (tasks : List Task) (ops : Array Op) :
    (run tasks ops).toList = ops.toList ++ (run tasks #[]).toList := by
  refine run.induct (motive := fun tasks _ => ∀ ops : Array Op,
    (run tasks ops).toList = ops.toList ++ (run tasks #[]).toList) ?_ ?_ ?_ tasks ops ops
  · intro _ ops
    simp [run]
  · intro _ e rest ih ops
    rw [run, run, ih]
  · intro _ e rest ih ops
    rw [run, run, ih, ih (#[].push e.op)]
    simp

theorem run_append (a b : List Task) (ops : Array Op) :
    (run (a ++ b) ops).toList = (run a ops).toList ++ (run b #[]).toList := by
  induction a, ops using run.induct with
  | case1 ops => rw [List.nil_append, run_eq, run.eq_1 ops]
  | case2 ops e rest ih =>
    rw [List.cons_append, run, run.eq_2 ops, ← ih]
    simp
  | case3 ops e rest ih => rw [List.cons_append, run, run.eq_3 ops, ih]

theorem run_visits (es : List Expr) :
    (run (es.map visit) #[]).toList = es.flatMap Expr.flatten := by
  induction es with
  | nil => simp [run]
  | cons e rest ih =>
    have hsplit : (e :: rest).map visit = [visit e] ++ rest.map visit := rfl
    rw [hsplit, run_append, ih, List.flatMap_cons]
    rfl

end Task

/-- **The operations of an expression** are those of its operands in order, then its own. -/
theorem Expr.flatten_eq (e : Expr) : e.flatten = e.children.flatMap flatten ++ [e.op] := by
  rw [flatten, Task.run, Task.run_append, Task.run_visits]
  simp [Task.run]

/-! ## Statements -/

/-- The operations of a statement. A statement that cannot be laid out has none. -/
def Stmt.code (base : Nat) (s : Stmt) : List Op := (s.flatten base).toOption.getD []

theorem Stmt.flatten_of_guardOk {s : Stmt} (h : s.GuardOk) (base : Nat) :
    s.flatten base = .ok (s.code base) := by
  cases s with
  | branch cond guarded =>
    rcases h cond guarded rfl with ⟨l, rfl⟩ | ⟨e, rfl⟩
    · rfl
    · rfl
  | _ => rfl

namespace Program

/-- The operations of statements that stand at position `base`. -/
def codeOf (base : Nat) : List Stmt → List Op
  | [] => []
  | s :: rest => s.code base ++ codeOf (base + (s.code base).length) rest

/-- The positions of the labels of statements that stand at position `base`. -/
def startsOf (base : Nat) : List Stmt → List Nat
  | [] => []
  | s :: rest =>
    (s.label?.map fun _ => base).toList ++ startsOf (base + (s.code base).length) rest

theorem codeOf_append (base : Nat) (a b : List Stmt) :
    codeOf base (a ++ b) = codeOf base a ++ codeOf (base + (codeOf base a).length) b := by
  induction a generalizing base with
  | nil => simp [codeOf]
  | cons s rest ih => simp [codeOf, ih, Nat.add_assoc]

theorem startsOf_append (base : Nat) (a b : List Stmt) :
    startsOf base (a ++ b) = startsOf base a ++ startsOf (base + (codeOf base a).length) b := by
  induction a generalizing base with
  | nil => simp [codeOf, startsOf]
  | cons s rest ih => simp [codeOf, startsOf, ih, Nat.add_assoc]

theorem length_startsOf (base : Nat) (stmts : List Stmt) :
    (startsOf base stmts).length = (labelsOf stmts).length := by
  induction stmts generalizing base with
  | nil => rfl
  | cons s rest ih => cases h : s.label? <;> simp [startsOf, labelsOf_cons, ih, h]

theorem startsOf_eq_nil {base : Nat} {stmts : List Stmt} (h : labelsOf stmts = []) :
    startsOf base stmts = [] := by
  rw [← List.length_eq_zero_iff, length_startsOf, h, List.length_nil]

theorem foldlM_addStmt {stmts : List Stmt} (h : ∀ s ∈ stmts, s.GuardOk) (p : Program) :
    ∃ p', stmts.foldlM addStmt p = .ok p' ∧
      p'.ops.toList = p.ops.toList ++ codeOf p.ops.toList.length stmts ∧ p'.starts = p.starts := by
  induction stmts generalizing p with
  | nil => exact ⟨p, rfl, by simp [codeOf], rfl⟩
  | cons s rest ih =>
    have hs : addStmt p s = .ok { p with ops := p.ops ++ s.code p.ops.size } := by
      rw [addStmt, Stmt.flatten_of_guardOk (h s List.mem_cons_self)]
      rfl
    obtain ⟨p', hp', hops, hstarts⟩ := ih (fun t ht => h t (List.mem_cons_of_mem s ht))
      { p with ops := p.ops ++ s.code p.ops.size }
    refine ⟨p', ?_, ?_, hstarts⟩
    · rw [List.foldlM_cons, hs]
      exact hp'
    · rw [hops]
      simp [codeOf]

end Program

/-! ## Blocks -/

/-- The blocks of statements from position `pos` on, when a block is open since position
`first`. -/
def spansOf (first pos : Nat) : List Stmt → List Span
  | [] => [⟨first, pos⟩]
  | .label _ :: rest => ⟨first, pos⟩ :: spansOf pos (pos + 1) rest
  | _ :: rest => spansOf first (pos + 1) rest

theorem spansOf_cons_of_label?_eq_none {s : Stmt} (h : s.label? = none) (first pos : Nat)
    (rest : List Stmt) : spansOf first pos (s :: rest) = spansOf first (pos + 1) rest := by
  cases s <;> simp_all [spansOf, Stmt.label?]

namespace Graph

/-- **A scan in the middle of a body**: the blocks before the current one are closed, the current
one is that of label `closed.length` and reaches from `first` to `pos`, and `ahead` more are to
come. -/
structure Scanned (s : Scan) (closed : List Span) (first pos ahead : Nat) : Prop where
  current : s.current = .label closed.length
  spans : s.graph.spans.toList = closed ++ ⟨first, pos⟩ :: List.replicate ahead ({} : Span)

theorem addEdge_eq {g : Graph} {source target : BlockId} (hs : g.has source = true)
    (ht : g.has target = true) :
    g.addEdge source target = .ok { g with edges := ⟨source, target⟩ :: g.edges } := by
  simp [addEdge, hs, ht]

theorem mapSpan_label {g : Graph} {i : Nat} {a b : List Span} {s : Span} (f : Span → Span)
    (h : g.spans.toList = a ++ s :: b) (hi : i = a.length) :
    ∃ g', g.mapSpan (.label i) f = .ok g' ∧ g'.spans.toList = a ++ f s :: b := by
  have hget : g.spans[i]? = some s := by
    rw [← Array.getElem?_toList, h, hi]
    simp
  refine ⟨{ g with spans := g.spans.setIfInBounds i (f s) }, by simp [mapSpan, hget], ?_⟩
  simp [h, hi]

variable {s : Scan} {closed : List Span} {first pos ahead : Nat}

theorem Scanned.labelCount (h : Scanned s closed first pos ahead) :
    s.graph.labelCount = closed.length + 1 + ahead := by
  rw [Graph.labelCount, ← Array.length_toList, h.spans]
  simp
  omega

theorem Scanned.has_current (h : Scanned s closed first pos ahead) :
    s.graph.has s.current = true := by
  have := h.labelCount
  simp only [h.current, has, decide_eq_true_eq]
  omega

theorem Scanned.addEdge (h : Scanned s closed first pos ahead) {target : BlockId}
    (ht : s.graph.has target = true) :
    ∃ g, s.graph.addEdge s.current target = .ok g ∧ g.spans = s.graph.spans :=
  ⟨_, addEdge_eq h.has_current ht, rfl⟩

/-- **A statement other than a label** lengthens the current block. -/
theorem Scanned.step (h : Scanned s closed first pos ahead) {stmt : Stmt}
    (hl : stmt.label? = none) (hg : stmt.GuardOk)
    (hn : ∀ l ∈ stmt.names, l < closed.length + 1 + ahead) :
    ∃ s', s.step pos stmt = .ok s' ∧ Scanned s' closed first (pos + 1) ahead := by
  have hvisit : ∃ s₁, s.visit pos stmt = .ok s₁ ∧ s₁.current = s.current ∧
      s₁.graph.spans = s.graph.spans := by
    have hexit : ∃ g, s.graph.addEdge s.current .exit = .ok g ∧ g.spans = s.graph.spans :=
      h.addEdge rfl
    have hjump : ∀ l ∈ stmt.names, ∃ g, s.graph.addEdge s.current (.label l) = .ok g ∧
        g.spans = s.graph.spans := by
      intro l hlmem
      refine h.addEdge ?_
      rw [has, h.labelCount, decide_eq_true_eq]
      exact hn l hlmem
    cases stmt with
    | label l => simp [Stmt.label?] at hl
    | jump l =>
      obtain ⟨g, hedge, hspans⟩ := hjump l (by simp [Stmt.names])
      exact ⟨{ s with graph := g }, by simp [Scan.visit, hedge], rfl, hspans⟩
    | branch cond guarded =>
      rcases hg cond guarded rfl with ⟨l, rfl⟩ | ⟨e, rfl⟩
      · obtain ⟨g, hedge, hspans⟩ := hjump l (by simp [Stmt.names])
        exact ⟨{ s with graph := g }, by simp [Scan.visit, hedge], rfl, hspans⟩
      · obtain ⟨g, hedge, hspans⟩ := hexit
        exact ⟨{ s with graph := g }, by simp [Scan.visit, hedge], rfl, hspans⟩
    | ret _ | quit =>
      obtain ⟨g, hedge, hspans⟩ := hexit
      exact ⟨{ s with graph := g }, by simp [Scan.visit, hedge], rfl, hspans⟩
    | _ => exact ⟨s, rfl, rfl, rfl⟩
  obtain ⟨s₁, hv, hc, hsp⟩ := hvisit
  obtain ⟨g, hmap, hg'⟩ := mapSpan_label (g := s₁.graph) (fun span => { span with last := pos + 1 })
    (hsp ▸ h.spans) rfl
  refine ⟨{ s₁ with graph := g, falls := !stmt.isTerminator }, ?_, ⟨?_, hg'⟩⟩
  · simp only [Scan.step, hv, Bind.bind, Except.bind, hc, h.current, hmap]
    rfl
  · exact hc.trans h.current

/-- **The next label** closes the current block and opens its own. -/
theorem Scanned.stepLabel (h : Scanned s closed first pos (ahead + 1)) :
    ∃ s', s.step pos (.label (closed.length + 1)) = .ok s' ∧
      Scanned s' (closed ++ [⟨first, pos⟩]) pos (pos + 1) ahead := by
  have hedge : ∃ g, (if s.falls then s.graph.addEdge s.current (.label (closed.length + 1))
      else .ok s.graph) = .ok g ∧ g.spans = s.graph.spans := by
    by_cases hf : s.falls
    · rw [if_pos hf]
      refine h.addEdge ?_
      have := h.labelCount
      simp only [has, decide_eq_true_eq]
      omega
    · rw [if_neg hf]
      exact ⟨_, rfl, rfl⟩
  obtain ⟨g₁, he, hsp⟩ := hedge
  have hlen : (closed ++ [(⟨first, pos⟩ : Span)]).length = closed.length + 1 := by simp
  have hspans : g₁.spans.toList =
      (closed ++ [⟨first, pos⟩]) ++ ({} : Span) :: List.replicate ahead ({} : Span) := by
    rw [hsp, h.spans, List.replicate_succ]
    simp
  obtain ⟨g₂, hopen, hg₂⟩ := mapSpan_label (fun _ => ⟨pos, pos⟩) hspans rfl
  obtain ⟨g₃, hlast, hg₃⟩ := mapSpan_label (fun span => { span with last := pos + 1 }) hg₂ rfl
  rw [hlen] at hopen hlast
  have hvisit : s.visit pos (.label (closed.length + 1)) =
      .ok { s with graph := g₂, current := .label (closed.length + 1) } := by
    by_cases hf : s.falls
    · rw [if_pos hf] at he
      simp only [Scan.visit, hf, if_true, he, hopen, Bind.bind, Except.bind]
      rfl
    · rw [if_neg hf, Except.ok.injEq] at he
      simp only [Scan.visit, hf, he, hopen, Bind.bind, Except.bind]
      rfl
  refine ⟨{ s with graph := g₃, current := .label (closed.length + 1), falls := true },
    ?_, ⟨by simp, hg₃⟩⟩
  simp only [Scan.step, hvisit, hlast, Bind.bind, Except.bind]
  rfl

/-- **One pass over the statements finds the blocks.** -/
theorem Scan.run_spans {stmts : List Stmt} (h : Scanned s closed first pos ahead)
    (hl : labelsOf stmts = List.range' (closed.length + 1) ahead)
    (hn : ∀ t ∈ stmts, ∀ l ∈ t.names, l < closed.length + 1 + ahead)
    (hg : ∀ t ∈ stmts, t.GuardOk) :
    ∃ s', s.run pos stmts = .ok s' ∧ s'.graph.has s'.current = true ∧
      s'.graph.spans.toList = closed ++ spansOf first pos stmts := by
  induction stmts generalizing s closed first pos ahead with
  | nil =>
    refine ⟨s, rfl, h.has_current, ?_⟩
    cases ahead with
    | zero => simp [h.spans, spansOf]
    | succ n => simp [labelsOf, List.range'_succ] at hl
  | cons t rest ih =>
    have hg' : ∀ t ∈ rest, t.GuardOk := fun u hu => hg u (List.mem_cons_of_mem t hu)
    cases ht : t.label? with
    | none =>
      obtain ⟨s₁, hstep, h₁⟩ := h.step ht (hg t List.mem_cons_self) (hn t List.mem_cons_self)
      have hl' : labelsOf rest = List.range' (closed.length + 1) ahead := by
        rw [← hl, labelsOf_cons, ht, Option.toList_none, List.nil_append]
      obtain ⟨s', hrun, hhas, hspans⟩ :=
        ih h₁ hl' (fun u hu => hn u (List.mem_cons_of_mem t hu)) hg'
      refine ⟨s', ?_, hhas, ?_⟩
      · simp only [Scan.run, hstep, Bind.bind, Except.bind, hrun]
      · rw [spansOf_cons_of_label?_eq_none ht, hspans]
    | some l =>
      obtain rfl := Stmt.mem_names_of_label? ht
      cases ahead with
      | zero => simp [labelsOf_cons, ht] at hl
      | succ n =>
        simp only [labelsOf_cons, ht, Option.toList_some, List.singleton_append, List.range'_succ,
          List.cons.injEq] at hl
        obtain ⟨rfl, hl'⟩ := hl
        obtain ⟨s₁, hstep, h₁⟩ := h.stepLabel
        have hn' : ∀ t ∈ rest, ∀ l ∈ t.names,
            l < (closed ++ [(⟨first, pos⟩ : Span)]).length + 1 + n := by
          intro u hu l hlu
          refine Nat.lt_of_lt_of_le (hn u (List.mem_cons_of_mem _ hu) l hlu) ?_
          simp only [List.length_append, List.length_singleton]
          omega
        obtain ⟨s', hrun, hhas, hspans⟩ := ih h₁ (by simpa using hl') hn' hg'
        refine ⟨s', ?_, hhas, ?_⟩
        · simp only [Scan.run, hstep, Bind.bind, Except.bind, hrun]
        · rw [hspans, spansOf]
          simp

/-- **The graph of a normal body** exists and has the blocks of its statements. -/
theorem ofBody_normal {b : Body} (h : b.Normal) {rest : List Stmt}
    (hb : b.stmts = .label 0 :: rest) :
    ∃ g, ofBody b = .ok g ∧ g.spans.toList = spansOf 0 1 rest := by
  have hlabels := h.labels
  rw [hb, labelsOf_cons] at hlabels
  obtain ⟨n, hn⟩ : ∃ n, b.labelCount = n + 1 := by
    refine Nat.exists_eq_succ_of_ne_zero fun h0 => ?_
    simp [h0, Stmt.label?] at hlabels
  have hrest : labelsOf rest = List.range' (([] : List Span).length + 1) n := by
    simpa [hn, List.range_eq_range', List.range'_succ, Stmt.label?] using hlabels
  -- The first label opens block 0 from the entry.
  have hfirst : ∃ s, Scan.step { graph := { spans := Array.replicate b.labelCount {} } } 0
      (.label 0) = .ok s ∧ Scanned s [] 0 1 n := by
    simp only [hn, Scan.step, Scan.visit, Graph.addEdge, has, Graph.labelCount, Bind.bind,
      Except.bind, mapSpan]
    simp [Pure.pure, Except.pure]
    constructor <;> simp [Array.replicate_succ']
  obtain ⟨s₀, hstep, hs₀⟩ := hfirst
  obtain ⟨s, hrun, hhas, hspans⟩ := Scan.run_spans hs₀ hrest
    (fun t ht l hl => by
      refine Nat.lt_of_lt_of_le (h.named t (hb ▸ List.mem_cons_of_mem _ ht) l hl) ?_
      simp only [List.length_nil]
      omega)
    (fun t ht => h.guards t (hb ▸ List.mem_cons_of_mem _ ht))
  have hall : Scan.run { graph := { spans := Array.replicate b.labelCount {} } } 0 b.stmts =
      .ok s := by
    simp only [hb, Scan.run, hstep, Bind.bind, Except.bind, hrun]
  by_cases hf : s.falls
  · have hexit : s.graph.has .exit = true := rfl
    refine ⟨{ s.graph with edges := ⟨s.current, .exit⟩ :: s.graph.edges }, ?_, hspans⟩
    simp only [ofBody, hall, Bind.bind, Except.bind, hf, if_true, addEdge_eq hhas hexit]
  · refine ⟨s.graph, ?_, hspans⟩
    simp only [ofBody, hall, Bind.bind, Except.bind, hf]
    rfl

end Graph

/-! ## The program -/

namespace Program

/-- **A program that holds the layout of some statements**, with room for the starts of `ahead` more
labels. -/
structure Holds (p : Program) (stmts : List Stmt) (ahead : Nat) : Prop where
  ops : p.ops.toList = codeOf 0 stmts
  starts : p.starts.toList = startsOf 0 stmts ++ List.replicate ahead 0

variable {b : Body} {p : Program} {pre inner rest : List Stmt} {l : Label}

/-- Appending a block, which is a label and statements that are none. -/
theorem Holds.addBlock {n : Nat} (hp : p.Holds pre (n + 1))
    (hb : b.stmts = pre ++ .label l :: inner ++ rest) (hg : ∀ s ∈ b.stmts, s.GuardOk)
    (hi : labelsOf inner = []) :
    ∃ p', addBlock b p (labelsOf pre).length ⟨pre.length, pre.length + (inner.length + 1)⟩ = .ok p' ∧
      p'.Holds (pre ++ .label l :: inner) n := by
  have hindex : (labelsOf pre).length < p.starts.size := by
    rw [← Array.length_toList, hp.starts, List.length_append, length_startsOf, List.length_replicate]
    omega
  have hlast : pre.length + (inner.length + 1) ≤ b.stmts.length := by
    simp [hb]
  have hblock : (b.stmts.drop pre.length).take (inner.length + 1) = .label l :: inner := by
    rw [hb, List.append_assoc, List.drop_left]
    simp
  have hguards : ∀ s ∈ Stmt.label l :: inner, s.GuardOk := by
    intro s hs
    refine hg s ?_
    rw [hb]
    exact List.mem_append_left _ (List.mem_append_right _ hs)
  obtain ⟨p', hfold, hops, hstarts⟩ := foldlM_addStmt hguards
    { p with starts := p.starts.setIfInBounds (labelsOf pre).length p.ops.size }
  refine ⟨p', ?_, ?_, ?_⟩
  · rw [Program.addBlock, if_pos hindex, if_pos ⟨Nat.le_add_right _ _, hlast⟩,
      Nat.add_sub_cancel_left, hblock]
    exact hfold
  · rw [hops, codeOf_append, hp.ops, Nat.zero_add]
  · have hcode : startsOf 0 (pre ++ .label l :: inner) = startsOf 0 pre ++ [p.ops.size] := by
      rw [startsOf_append, Nat.zero_add, ← hp.ops, startsOf, startsOf_eq_nil hi]
      simp [Stmt.label?]
    rw [hstarts, hcode, Array.toList_setIfInBounds, hp.starts, List.replicate_succ,
      ← length_startsOf 0 pre]
    simp

/-- **Laying out the blocks in order lays out all statements.** -/
theorem Holds.addBlocks_spansOf (hp : p.Holds pre ((labelsOf rest).length + 1))
    (hb : b.stmts = pre ++ .label l :: inner ++ rest) (hg : ∀ s ∈ b.stmts, s.GuardOk)
    (hi : labelsOf inner = []) :
    ∃ p', addBlocks b p (labelsOf pre).length
        (spansOf pre.length (pre.length + (inner.length + 1)) rest) = .ok p' ∧
      p'.Holds b.stmts 0 := by
  induction rest generalizing p pre inner l with
  | nil =>
    obtain ⟨p', hadd, hp'⟩ := hp.addBlock hb hg hi
    refine ⟨p', ?_, ?_⟩
    · simp only [spansOf, addBlocks, hadd, Bind.bind, Except.bind]
    · rw [hb, List.append_nil]
      exact hp'
  | cons s rest ih =>
    cases hs : s.label? with
    | none =>
      rw [labelsOf_cons, hs] at hp
      have hi' : labelsOf (inner ++ [s]) = [] := by
        rw [labelsOf_append, hi, labelsOf_cons, hs]
        rfl
      obtain ⟨p', hadd, hp'⟩ := ih (l := l) hp (by simp [hb]) hi'
      refine ⟨p', ?_, hp'⟩
      rw [spansOf_cons_of_label?_eq_none hs, ← hadd, List.length_append]
      rfl
    | some k =>
      obtain rfl := Stmt.mem_names_of_label? hs
      rw [labelsOf_cons, hs] at hp
      obtain ⟨p₁, hadd₁, hp₁⟩ := hp.addBlock hb hg hi
      have hone : ((some k).toList ++ labelsOf rest).length = (labelsOf rest).length + 1 := by
        simp [Nat.add_comm]
      rw [hone] at hp₁
      have hb' : b.stmts = (pre ++ .label l :: inner) ++ .label k :: [] ++ rest := by simp [hb]
      have hcount : labelsOf (pre ++ .label l :: inner) = labelsOf pre ++ [l] := by
        rw [labelsOf_append, labelsOf_cons, hi]
        rfl
      obtain ⟨p', hadd, hp'⟩ := ih hp₁ hb' rfl
      refine ⟨p', ?_, hp'⟩
      rw [hcount] at hadd
      simp only [spansOf, addBlocks, hadd₁, Bind.bind, Except.bind]
      simpa using hadd

/-- **The graph and the program of a normal body** exist, and the program is the layout of its
statements. -/
theorem ofBody_normal {b : Body} (h : b.Normal) :
    ∃ g p, Graph.ofBody b = .ok g ∧ Program.ofBody b g = .ok p ∧
      p.ops.toList = codeOf 0 b.stmts ∧ p.starts.toList = startsOf 0 b.stmts := by
  obtain ⟨rest, hb⟩ := h.head
  obtain ⟨g, hg, hspans⟩ := Graph.ofBody_normal h hb
  have hcount : b.labelCount = (labelsOf rest).length + 1 := by
    have := congrArg List.length h.labels
    rw [hb, labelsOf_cons, List.length_range] at this
    rw [← this]
    simp [Stmt.label?, Nat.add_comm]
  have hstart : Holds { starts := Array.replicate b.labelCount 0 } []
      ((labelsOf rest).length + 1) := by
    refine ⟨rfl, ?_⟩
    rw [hcount]
    simp [startsOf]
  have hb' : b.stmts = [] ++ .label 0 :: [] ++ rest := hb
  obtain ⟨p, hp, hholds⟩ := hstart.addBlocks_spansOf hb' h.guards rfl
  refine ⟨g, p, hg, ?_, hholds.ops, by simpa using hholds.starts⟩
  rw [Program.ofBody, hspans]
  exact hp

end Program

/-- **The routine of a normal body** exists, and its program is the layout of its statements. -/
theorem Routine.ofBody_normal {b : Body} (h : b.Normal) (convention : Convention)
    (address : UInt32) :
    ∃ r, Routine.ofBody convention address b = .ok r ∧ r.convention = convention ∧
      r.address = address ∧ r.body = b ∧
      r.program.ops.toList = Program.codeOf 0 b.stmts ∧
      r.program.starts.toList = Program.startsOf 0 b.stmts := by
  obtain ⟨g, p, hg, hp, hops, hstarts⟩ := Program.ofBody_normal h
  refine ⟨⟨convention, address, b, g, p⟩, ?_, rfl, rfl, rfl, hops, hstarts⟩
  simp only [Routine.ofBody, hg, hp, Bind.bind, Except.bind]
  rfl

end StoryVM
