import Mathlib.Tactic.IntervalCases
import StoryVM.Proofs.Blocks
import StoryVM.Proofs.Halting

/-! # The graph covers every run

The graph of a routine and its program are made from its body by two passes that know nothing of each
other. This module shows that they agree (`graph_covers`): whichever way an activation of the routine
goes through its program, with calls in between, it passes from block to block along edges of the
graph, begins with the block that the entry leads to, and leaves from a block with an edge to the
exit.

* `Op.Leads`: where an operation can lead, as far as positions are concerned.
* `Stmt.code_leads`: from an operation of a statement control comes to the next one of the statement,
  to what stands behind the statement, or to the label that it jumps to.
* `Routine.Stands`: the positions that control can have when it has come to a block last. Operations
  lead from such positions to such positions (`Stands.step`, `Stands.enter`), and they have the edges
  that are needed (`Stands.enter`, `Stands.leave`).
* `Run.Holds`, `Run.step_holds`: the activation at one height of the stack of activations, and what
  becomes of it in a step. -/

namespace StoryVM

variable {σ : Type}

/-! ## Operations -/

/-- Whether an operation never goes on to the one behind it. -/
def Op.isFinal : Op → Bool
  | jump _ | ret | quit => true
  | _ => false

/-- **Where an operation leads** in its program. -/
inductive Op.Leads (p : Program) (pc : Nat) (op : Op) : Nat → Prop
  | on (h : op.isFinal = false) : op.Leads p pc (pc + 1)
  | jump {l : Label} {next : Nat} (hop : op = .jump l ∨ op = .jumpIf l)
    (h : p.start l = .ok next) : op.Leads p pc next
  | skip {target : Nat} (hop : op = .skipUnless target) : op.Leads p pc target

theorem Op.Leads.of_enter {p : Program} {pc next : Nat} {l : Label}
    (h : (Op.enter l).Leads p pc next) : next = pc + 1 := by
  cases h with
  | on _ => rfl
  | jump hop _ => rcases hop with hop | hop <;> cases hop
  | skip hop => cases hop

/-- **An activation that goes on or waits** stands where its operation leads. -/
theorem Op.exec_leads [Host σ] (op : Op) (a b : Activation) (m : Machine σ)
    (h : (op.exec { a with pc := a.pc + 1 } m).activation? = some b) :
    op.Leads a.program a.pc b.pc := by
  cases hfinal : op.isFinal with
  | false =>
    cases (op.exec_does { a with pc := a.pc + 1 } m).activation b h with
    | stay operands => exact .on hfinal
    | jump hop hstart operands => exact .jump hop hstart
    | skip hop operands => exact .skip hop
  | true =>
    cases op with
    | jump l =>
      unfold Op.exec Activation.jump at h
      cases hstart : a.program.start l with
      | error f => simp [hstart, Except.map, Transfer.ofActivation, Transfer.activation?] at h
      | ok pc =>
        simp only [hstart, Except.map, Transfer.ofActivation, Transfer.activation?,
          Option.some.injEq] at h
        rw [← h]
        exact .jump (Or.inl rfl) hstart
    | ret =>
      unfold Op.exec at h
      dsimp only at h
      split at h
      · cases h
      · cases h
    | quit => cases h
    | _ => cases hfinal

/-! ## Statements -/

/-- What an operation shows of the statement that it is part of. -/
def Op.Shows (s : Stmt) : Op → Prop
  | enter l => s = .label l
  | jump l | jumpIf l => s.target? = some l
  | skipUnless _ => s.isTerminator = false
  | ret | quit => s.isExit = true
  | _ => True

namespace Stmt

variable {s : Stmt} {base : Nat} {op : Op}

theorem shows_of_mem_code (h : op ∈ s.code base) : op.Shows s := by
  have hexpr : ∀ e : Expr, op ∈ e.flatten → op.Shows s := by
    intro e he
    obtain ⟨c, rfl⟩ := e.exists_op_of_mem_flatten he
    cases c <;> exact trivial
  have hlast : ∀ {front : List Op} {last : Op}, op ∈ front ++ [last] → (op ∈ front → op.Shows s) →
      last.Shows s → op.Shows s := by
    intro front last hop hfront hl
    rcases List.mem_append.mp hop with hop | hop
    · exact hfront hop
    · rw [List.mem_singleton.mp hop]
      exact hl
  cases s with
  | label _ | jump _ | quit =>
    obtain rfl := List.mem_singleton.mp h
    rfl
  | restoreUndo =>
    obtain rfl := List.mem_singleton.mp h
    trivial
  | ret value => exact hlast h (hexpr value) rfl
  | store width address value =>
    refine hlast h (fun hop => ?_) trivial
    rcases List.mem_append.mp hop with hop | hop
    · exact hexpr address hop
    · exact hexpr value hop
  | branch cond guarded =>
    cases guarded with
    | jump l => exact hlast h (hexpr cond) rfl
    | ret value =>
      rcases List.mem_append.mp h with hop | hop
      · exact hexpr cond hop
      · rcases List.mem_cons.mp hop with rfl | hop
        · rfl
        · exact hlast hop (hexpr value) rfl
    | _ => cases h
  | eval e | writeLocal _ e | push e | copyStack e | putChar e | putNumber e | putString e =>
    exact hlast h (hexpr e) trivial

/-- A terminator ends with an operation that never goes on to the one behind it. -/
theorem exists_final (h : s.isTerminator = true) (base : Nat) :
    ∃ front op, s.code base = front ++ [op] ∧ op.isFinal = true := by
  cases s with
  | jump l => exact ⟨[], .jump l, rfl, rfl⟩
  | ret value => exact ⟨value.flatten, .ret, rfl, rfl⟩
  | quit => exact ⟨[], .quit, rfl, rfl⟩
  | _ => cases h

theorem length_code_pos (h : s.GuardOk) (base : Nat) : 0 < (s.code base).length := by
  cases s with
  | branch cond guarded =>
    rcases h cond guarded rfl with ⟨l, rfl⟩ | ⟨value, rfl⟩
    · exact List.length_pos_of_mem (List.mem_append_right _ List.mem_cons_self)
    · exact List.length_pos_of_mem (List.mem_append_right _ List.mem_cons_self)
  | label _ | jump _ | quit | restoreUndo => exact Nat.zero_lt_one
  | _ => exact List.length_pos_of_mem (List.mem_append_right _ List.mem_cons_self)

/-- **From an operation of a statement** control comes to the next one of the statement, to what
stands behind it unless it is a terminator, or to the label that it jumps to. -/
theorem code_leads {j next : Nat} {p : Program} (hop : (s.code base)[j]? = some op)
    (h : op.Leads p (base + j) next) :
    (next = base + (j + 1) ∧ j + 1 < (s.code base).length) ∨
      (next = base + (s.code base).length ∧ s.isTerminator = false) ∨
      ∃ l, s.target? = some l ∧ p.start l = .ok next := by
  have hshows : op.Shows s := shows_of_mem_code (List.mem_of_getElem? hop)
  have hlt : j < (s.code base).length := (List.getElem?_eq_some_iff.mp hop).1
  cases h with
  | on hfinal =>
    by_cases hj : j + 1 < (s.code base).length
    · exact Or.inl ⟨rfl, hj⟩
    · have hlen : (s.code base).length = j + 1 := by omega
      refine Or.inr (Or.inl ⟨by omega, ?_⟩)
      cases hterm : s.isTerminator with
      | false => rfl
      | true =>
        obtain ⟨front, last, hcode, hlast⟩ := exists_final hterm base
        have hfront : front.length = j := by
          rw [hcode, List.length_append, List.length_singleton] at hlen
          omega
        have hop' : op = last := by
          rw [hcode, ← hfront, List.getElem?_concat_length] at hop
          exact (Option.some.inj hop).symm
        rw [hop', hlast] at hfinal
        cases hfinal
  | jump hjump hstart =>
    rename_i l
    refine Or.inr (Or.inr ⟨l, ?_, hstart⟩)
    rcases hjump with rfl | rfl
    · exact hshows
    · exact hshows
  | skip hskip =>
    subst hskip
    exact Or.inr (Or.inl ⟨skipUnless_of_mem_code (List.mem_of_getElem? hop), hshows⟩)

end Stmt

theorem Program.HasAt.getElem? {p : Program} {pc j : Nat} {code : List Op} (h : p.HasAt pc code)
    (hj : j < code.length) : p.ops[pc + j]? = code[j]? := by
  obtain ⟨rest, hrest⟩ := h
  rw [← Array.getElem?_toList, ← List.getElem?_drop, ← hrest, List.getElem?_append_left hj]

theorem Program.length_codeOf_concat (base : Nat) (pre : List Stmt) (s : Stmt) :
    (codeOf base (pre ++ [s])).length =
      (codeOf base pre).length + (s.code (base + (codeOf base pre).length)).length := by
  simp [codeOf_append, codeOf]

/-! ## Positions -/

namespace Routine

open Program (codeOf length_codeOf_concat)

/-- **Where control can be** in the program of a routine when `b` is the block that it has come to
last: at an operation of a statement of that block, at a label to which the block has an edge, or at
the end of the program if the block has an edge to the exit. -/
inductive Stands (r : Routine) (b : BlockId) : Nat → Prop
  | inside {pre post : List Stmt} {s : Stmt} {j : Nat} (hb : r.body.stmts = pre ++ s :: post)
    (hs : s.label? = none) (hblock : (Graph.pointAfter {} pre).block = b)
    (hj : j < (s.code (codeOf 0 pre).length).length) : r.Stands b ((codeOf 0 pre).length + j)
  | label {pre post : List Stmt} {l : Label} (hb : r.body.stmts = pre ++ .label l :: post)
    (he : ⟨b, .label l⟩ ∈ r.graph.edges) : r.Stands b (codeOf 0 pre).length
  | done (he : ⟨b, .exit⟩ ∈ r.graph.edges) : r.Stands b (codeOf 0 r.body.stmts).length

variable {r : Routine} {b : BlockId}

/-- The edges of a statement are edges of the graph. -/
theorem mem_edges_of_stmt (hg : Graph.ofBody r.body = .ok r.graph) {pre post : List Stmt} {s : Stmt}
    (hb : r.body.stmts = pre ++ s :: post) {target : BlockId}
    (ht : target ∈ s.targets (Graph.pointAfter {} pre).falls) :
    ⟨(Graph.pointAfter {} pre).block, target⟩ ∈ r.graph.edges := by
  refine (Graph.mem_edges_ofBody hg _).mpr (Or.inl ?_)
  rw [hb, Graph.edgesOf_append, Graph.edgesOf]
  exact List.mem_append_right _ (List.mem_append_left _ (List.mem_map_of_mem ht))

section Sound
variable (hr : r.Sound) (hg : Graph.ofBody r.body = .ok r.graph)
include hr hg

/-- **Control that falls out of statements** stands where the next one begins. -/
theorem Stands.fall {pre post : List Stmt} (hb : r.body.stmts = pre ++ post)
    (hp : Graph.pointAfter {} pre = ⟨b, true⟩) : r.Stands b (codeOf 0 pre).length := by
  cases post with
  | nil =>
    rw [List.append_nil] at hb
    rw [← hb] at hp ⊢
    refine .done ((Graph.mem_edges_ofBody hg _).mpr (Or.inr ?_))
    rw [hp]
    exact ⟨rfl, rfl⟩
  | cons s post =>
    cases hs : s.label? with
    | some l =>
      obtain rfl := Stmt.mem_names_of_label? hs
      have htarget : .label l ∈ (Stmt.label l).targets (Graph.pointAfter {} pre).falls := by
        rw [hp]
        exact List.mem_singleton_self _
      have hedge := mem_edges_of_stmt hg hb htarget
      rw [hp] at hedge
      exact .label hb hedge
    | none =>
      have hguard := hr.normal.guards s (by rw [hb]; simp)
      exact .inside hb hs (by rw [hp]) (Stmt.length_code_pos hguard _)

theorem Stands.start : r.Stands .entry 0 := .fall hr hg (List.nil_append _).symm rfl

/-- **An operation that enters no block** leads from the positions of a block to such positions. -/
theorem Stands.step {pc next : Nat} {op : Op} (h : r.Stands b pc) (hop : r.program.ops[pc]? = some op)
    (henter : ∀ l, op ≠ .enter l) (hleads : op.Leads r.program pc next) : r.Stands b next := by
  cases h with
  | label hb he =>
    exact absurd (Option.some.inj (hop.symm.trans (hr.hasAt hb).fetch)) (henter _)
  | done he => cases hop.symm.trans hr.fetch_end
  | @inside pre post s j hb hs hblock hj =>
    have hmem : s ∈ r.body.stmts := by simp [hb]
    rw [(hr.hasAt hb).getElem? hj] at hop
    rcases Stmt.code_leads hop hleads with ⟨rfl, hj'⟩ | ⟨rfl, hterm⟩ | ⟨l, hl, hstart⟩
    · exact .inside hb hs hblock hj'
    · have hb' : r.body.stmts = (pre ++ [s]) ++ post := by simp [hb]
      have hp : Graph.pointAfter {} (pre ++ [s]) = ⟨b, true⟩ := by
        rw [Graph.pointAfter_append, Graph.pointAfter, List.foldl_cons, List.foldl_nil, Stmt.pass, hs,
          hterm, ← hblock]
        rfl
      have hnext := Stands.fall hr hg hb' hp
      rwa [length_codeOf_concat, Nat.zero_add] at hnext
    · obtain ⟨pre', post', hb', -⟩ := hr.exists_at hmem (Stmt.mem_names_of_target? hl)
      obtain rfl := Except.ok.inj ((hr.start hb').symm.trans hstart)
      refine .label hb' ?_
      rw [← hblock]
      exact mem_edges_of_stmt hg hb (Stmt.label_mem_targets.mpr (Or.inr hl))

/-- **A block is entered** along an edge from the block that control has come to last. -/
theorem Stands.enter {pc : Nat} {l : Label} (h : r.Stands b pc)
    (hop : r.program.ops[pc]? = some (.enter l)) :
    ⟨b, .label l⟩ ∈ r.graph.edges ∧ r.Stands (.label l) (pc + 1) := by
  cases h with
  | done he => cases hop.symm.trans hr.fetch_end
  | inside hb hs hblock hj =>
    rw [(hr.hasAt hb).getElem? hj] at hop
    obtain rfl : _ = Stmt.label l := Stmt.shows_of_mem_code (List.mem_of_getElem? hop)
    cases hs
  | @label pre post k hb he =>
    obtain rfl : l = k := Op.enter.inj (Option.some.inj (hop.symm.trans (hr.hasAt hb).fetch))
    have hb' : r.body.stmts = (pre ++ [.label l]) ++ post := by simp [hb]
    have hp : Graph.pointAfter {} (pre ++ [.label l]) = ⟨.label l, true⟩ := by
      rw [Graph.pointAfter_append]
      rfl
    have hnext := Stands.fall hr hg hb' hp
    rw [length_codeOf_concat, Nat.zero_add] at hnext
    exact ⟨he, hnext⟩

/-- **Control leaves** from a block with an edge to the exit. -/
theorem Stands.leave {pc : Nat} (h : r.Stands b pc)
    (hop : r.program.ops[pc]? = none ∨ r.program.ops[pc]? = some .ret ∨
      r.program.ops[pc]? = some .quit) : ⟨b, .exit⟩ ∈ r.graph.edges := by
  cases h with
  | done he => exact he
  | label hb he =>
    rw [(hr.hasAt hb).fetch] at hop
    rcases hop with hop | hop | hop <;> cases hop
  | @inside pre post s j hb hs hblock hj =>
    rw [(hr.hasAt hb).getElem? hj] at hop
    have hexit : s.isExit = true := by
      rcases hop with hop | hop | hop
      · exact absurd hj (Nat.not_lt.mpr (List.getElem?_eq_none_iff.mp hop))
      · exact Stmt.shows_of_mem_code (List.mem_of_getElem? hop)
      · exact Stmt.shows_of_mem_code (List.mem_of_getElem? hop)
    rw [← hblock]
    exact mem_edges_of_stmt hg hb (Stmt.exit_mem_targets.mpr hexit)

end Sound

end Routine

/-! ## Activations in a run -/

namespace Run

/-- **The activation at a height** of the stack of activations: as many others wait below it. -/
def Holds (r : Run σ) (height : Nat) (a : Activation) : Prop :=
  ∃ above below, r.current :: r.suspended = above ++ a :: below ∧ below.length = height

variable {r r' : Run σ} {height : Nat} {a : Activation}

theorem holds_current (r : Run σ) : r.Holds r.suspended.length r.current :=
  ⟨[], r.suspended, rfl, rfl⟩

theorem Holds.eq_current (h : r.Holds height a) (hheight : r.suspended.length = height) :
    a = r.current := by
  obtain ⟨above, below, hstack, hbelow⟩ := h
  cases above with
  | nil => exact (List.cons.inj hstack).1.symm
  | cons c above =>
    have hs : r.suspended = above ++ a :: below := (List.cons.inj hstack).2
    rw [hs, List.length_append, List.length_cons] at hheight
    omega

theorem returnValue_running {v : UInt32} {m : Machine σ} (h : r.returnValue v m = .running r') :
    ∃ caller rest, r.suspended = caller :: rest ∧ r'.suspended = rest ∧ r'.current = caller.push v := by
  have hresume : ∀ m', resume m' r.suspended v = .running r' →
      ∃ caller rest, r.suspended = caller :: rest ∧ r'.suspended = rest ∧
        r'.current = caller.push v := by
    intro m' h
    cases hs : r.suspended with
    | nil =>
      rw [hs] at h
      cases h
    | cons caller rest =>
      rw [hs] at h
      cases h
      exact ⟨caller, rest, rfl, rfl, rfl⟩
  unfold returnValue at h
  split at h
  · exact hresume m h
  · split at h
    · cases h
    · exact hresume _ h

theorem callRoutine_running {address : UInt32} {args : List UInt32} {caller : Activation}
    {m : Machine σ} (h : r.callRoutine address args caller m = .running r') :
    r'.suspended = caller :: r.suspended := by
  unfold callRoutine at h
  split at h
  · cases h
  · cases h
    rfl

variable [Host σ]

/-- **What a step does to the stack of activations**: the current one moves to where its operation
leads, perhaps with a new one above it, or it is left and hands a value to the one below it. -/
theorem step_stack (h : r.step = .running r') :
    (∃ op b new, r.current.program.ops[r.current.pc]? = some op ∧ b.program = r.current.program ∧
      op.Leads r.current.program r.current.pc b.pc ∧
      r'.current :: r'.suspended = new ++ b :: r.suspended) ∨
    ∃ caller rest v, r.suspended = caller :: rest ∧
      r'.current :: r'.suspended = Activation.push caller v :: rest := by
  have hreturn : ∀ {v : UInt32} {m : Machine σ}, r.returnValue v m = .running r' →
      ∃ caller rest v, r.suspended = caller :: rest ∧
        r'.current :: r'.suspended = Activation.push caller v :: rest := by
    intro v m hv
    obtain ⟨caller, rest, hs, hrest, hcurrent⟩ := returnValue_running hv
    exact ⟨caller, rest, v, hs, by rw [hrest, hcurrent]⟩
  cases hop : r.current.program.ops[r.current.pc]? with
  | none =>
    rw [Run.step, hop] at h
    exact Or.inr (hreturn h)
  | some op =>
    rw [Run.step_of_fetch hop] at h
    have hdoes := op.exec_does { r.current with pc := r.current.pc + 1 } r.machine
    have hleads := op.exec_leads r.current (m := r.machine)
    cases ht : op.exec { r.current with pc := r.current.pc + 1 } r.machine with
    | next b m =>
      rw [ht] at h hdoes hleads
      cases h
      exact Or.inl ⟨op, b, [], rfl, (hdoes.activation b rfl).program, hleads b rfl, rfl⟩
    | call address args b m =>
      rw [ht] at h hdoes hleads
      have hs : r'.suspended = b :: r.suspended := callRoutine_running h
      refine Or.inl ⟨op, b, [r'.current], rfl, (hdoes.activation b rfl).program, hleads b rfl, ?_⟩
      rw [hs]
      rfl
    | ret v m =>
      rw [ht] at h
      exact Or.inr (hreturn h)
    | halt m =>
      rw [ht] at h
      cases h
    | fault f m =>
      rw [ht] at h
      cases h

/-- **A step moves the activation that executes**, unless it is left, to where its operation leads,
and all others stay where they are. -/
theorem step_holds (h : r.step = .running r') (ha : r.Holds height a)
    (hlive : height ≤ r'.suspended.length) :
    ∃ a', r'.Holds height a' ∧ a'.program = a.program ∧
      if r.suspended.length = height then
        ∃ op, a.program.ops[a.pc]? = some op ∧ op.Leads a.program a.pc a'.pc
      else a'.pc = a.pc := by
  obtain ⟨above, below, hstack, rfl⟩ := ha
  rcases step_stack h with ⟨op, b, new, hop, hprogram, hleads, hstack'⟩ | ⟨caller, rest, v, hs, hstack'⟩
  · cases above with
    | nil =>
      obtain ⟨rfl, rfl⟩ := List.cons.inj hstack
      refine ⟨b, ⟨new, r.suspended, hstack', rfl⟩, hprogram, ?_⟩
      rw [if_pos rfl]
      exact ⟨op, hop, hleads⟩
    | cons c above =>
      have hs : r.suspended = above ++ a :: below := (List.cons.inj hstack).2
      refine ⟨a, ⟨new ++ b :: above, below, by simp [hstack', hs], rfl⟩, rfl, ?_⟩
      rw [if_neg (by simp [hs]; omega)]
  · have hrest : r'.suspended = rest := (List.cons.inj hstack').2
    have hlt : below.length < r.suspended.length := by
      rw [hs, List.length_cons, ← hrest]
      omega
    simp only [if_neg (Nat.ne_of_gt hlt)]
    cases above with
    | nil =>
      have hbelow : r.suspended = below := (List.cons.inj hstack).2
      rw [hbelow] at hlt
      omega
    | cons c above =>
      have hs' : caller :: rest = above ++ a :: below := hs.symm.trans (List.cons.inj hstack).2
      cases above with
      | nil =>
        obtain ⟨rfl, rfl⟩ := List.cons.inj hs'
        exact ⟨caller.push v, ⟨[], rest, hstack', rfl⟩, rfl, rfl⟩
      | cons d above =>
        have hrest' : rest = above ++ a :: below := (List.cons.inj hs').2
        exact ⟨a, ⟨caller.push v :: above, below, by simp [hstack', hrest'], rfl⟩, rfl, rfl⟩

end Run

/-! ## Activations from their first step on -/

namespace Progress

variable [Host σ]

/-- **What the activation at a height executes** after `k` steps, if it is its turn: an operation, or
nothing when it is past its last one. -/
def fetched? (p : Progress σ) (height k : Nat) : Option (Option Op) :=
  match p.after k with
  | .running r =>
    if r.suspended.length = height then some r.current.program.ops[r.current.pc]? else none
  | .finished _ _ => none

/-- The activation at a height enters the block of a label. -/
def Enters (p : Progress σ) (height k : Nat) (l : Label) : Prop :=
  p.fetched? height k = some (some (.enter l))

/-- The activation at a height is left: it is past its last operation, or returns, or quits. -/
def Leaves (p : Progress σ) (height k : Nat) : Prop :=
  p.fetched? height k = some none ∨ p.fetched? height k = some (some .ret) ∨
    p.fetched? height k = some (some .quit)

/-- **The block that was entered last** at a height, from step `first` on and before step `last`, or
the entry if none was. -/
def LastEntered (p : Progress σ) (height first last : Nat) : BlockId → Prop
  | .entry => ∀ k l, first ≤ k → k < last → ¬ p.Enters height k l
  | .label a => ∃ k, first ≤ k ∧ k < last ∧ p.Enters height k a ∧
    ∀ j l, k < j → j < last → ¬ p.Enters height j l
  | .exit => False

/-- **One activation of a routine**, which begins with step `first` and has not been left before step
`last`: it keeps its height all the time, with the activations that it calls above it. -/
structure Activates (p : Progress σ) (routine : Routine) (height first last : Nat) : Prop where
  le : first ≤ last
  begins : ∃ r address, p.after first = .running r ∧ r.suspended.length = height ∧
    r.current = .ofRoutine routine address
  lives : ∀ k, first ≤ k → k ≤ last → ∃ r, p.after k = .running r ∧ height ≤ r.suspended.length

variable {p : Progress σ} {height first last k : Nat} {r : Run σ}

theorem fetched?_eq_some {op : Option Op} (hr : p.after k = .running r) :
    p.fetched? height k = some op ↔
      r.suspended.length = height ∧ r.current.program.ops[r.current.pc]? = op := by
  rw [fetched?, hr]
  simp

theorem Enters.unique {l l' : Label} (h : p.Enters height k l) (h' : p.Enters height k l') :
    l = l' :=
  Op.enter.inj (Option.some.inj (Option.some.inj (h.symm.trans h')))

namespace LastEntered

theorem enter {l : Label} (hfirst : first ≤ k) (h : p.Enters height k l) :
    p.LastEntered height first (k + 1) (.label l) :=
  ⟨k, hfirst, Nat.lt_succ_self k, h, fun j _ hj hj' => by omega⟩

theorem pass {b : BlockId} (h : p.LastEntered height first k b) (hk : ∀ l, ¬ p.Enters height k l) :
    p.LastEntered height first (k + 1) b := by
  cases b with
  | exit => exact h
  | entry =>
    intro j l hfirst hj
    rcases Nat.lt_succ_iff_lt_or_eq.mp hj with hj | rfl
    · exact h j l hfirst hj
    · exact hk l
  | label a =>
    obtain ⟨i, hfirst, hi, henter, hlater⟩ := h
    refine ⟨i, hfirst, Nat.lt_succ_of_lt hi, henter, fun j l hj hj' => ?_⟩
    rcases Nat.lt_succ_iff_lt_or_eq.mp hj' with hj' | rfl
    · exact hlater j l hj hj'
    · exact hk l

theorem unique {b b' : BlockId} (h : p.LastEntered height first last b)
    (h' : p.LastEntered height first last b') : b = b' := by
  cases b with
  | exit => exact h.elim
  | entry =>
    cases b' with
    | entry => rfl
    | exit => exact h'.elim
    | label a =>
      obtain ⟨k, hfirst, hk, henter, -⟩ := h'
      exact absurd henter (h k a hfirst hk)
  | label a =>
    obtain ⟨k, hfirst, hk, henter, hlater⟩ := h
    cases b' with
    | exit => exact h'.elim
    | entry => exact absurd henter (h' k a hfirst hk)
    | label a' =>
      obtain ⟨k', -, hk', henter', hlater'⟩ := h'
      rcases Nat.lt_trichotomy k k' with hlt | rfl | hgt
      · exact absurd henter' (hlater k' a' hlt hk')
      · rw [henter.unique henter']
      · exact absurd henter (hlater' k a hgt hk)

end LastEntered

theorem Activates.before {routine : Routine} (h : p.Activates routine height first last)
    (hk : first ≤ k) (hk' : k ≤ last) : p.Activates routine height first k :=
  ⟨hk, h.begins, fun j hj hj' => h.lives j hj (Nat.le_trans hj' hk')⟩

/-- **An activation of a sound routine** stands where control can be when it has come to the block
that was entered last. -/
theorem Activates.stands {routine : Routine} (hs : routine.Sound)
    (hg : Graph.ofBody routine.body = .ok routine.graph)
    (h : p.Activates routine height first last) :
    ∃ b r a, p.LastEntered height first last b ∧ p.after last = .running r ∧ r.Holds height a ∧
      a.program = routine.program ∧ routine.Stands b a.pc := by
  obtain ⟨n, rfl⟩ := Nat.exists_eq_add_of_le h.le
  induction n with
  | zero =>
    obtain ⟨r, address, hr, rfl, hcurrent⟩ := h.begins
    refine ⟨.entry, r, r.current, fun k l hk hk' => by omega, hr, r.holds_current, ?_, ?_⟩
    · rw [hcurrent]
      rfl
    · rw [hcurrent]
      exact .start hs hg
  | succ n ih =>
    obtain ⟨b, r, a, hlast, hr, hholds, hprogram, hstands⟩ := ih (h.before (by omega) (by omega))
    obtain ⟨r', hr', hlive⟩ := h.lives (first + n + 1) (by omega) (Nat.le_refl _)
    have hstep : r.step = .running r' := by
      rw [after_add, hr] at hr'
      exact hr'
    obtain ⟨a', hholds', hprogram', hmove⟩ := Run.step_holds hstep hholds hlive
    by_cases hheight : r.suspended.length = height
    · -- The activation executes: it enters a block, or goes on in the same one.
      obtain rfl := hholds.eq_current hheight
      rw [if_pos hheight] at hmove
      obtain ⟨op, hop, hleads⟩ := hmove
      rw [hprogram] at hleads
      have hfetch : p.fetched? height (first + n) = some (some op) :=
        (fetched?_eq_some hr).mpr ⟨hheight, hop⟩
      rw [hprogram] at hop
      by_cases henter : ∃ l, op = .enter l
      · obtain ⟨l, rfl⟩ := henter
        refine ⟨.label l, r', a', .enter (Nat.le_add_right _ _) hfetch, hr', hholds',
          hprogram'.trans hprogram, ?_⟩
        rw [hleads.of_enter]
        exact (hstands.enter hs hg hop).2
      · have hnone : ∀ l, op ≠ .enter l := fun l hl => henter ⟨l, hl⟩
        refine ⟨b, r', a', hlast.pass fun l hl => ?_, hr', hholds', hprogram'.trans hprogram,
          hstands.step hs hg hop hnone hleads⟩
        exact hnone l (Option.some.inj (Option.some.inj (hfetch.symm.trans hl)))
    · -- The activation waits.
      rw [if_neg hheight] at hmove
      refine ⟨b, r', a', hlast.pass fun l hl => hheight ((fetched?_eq_some hr).mp hl).1, hr', hholds',
        hprogram'.trans hprogram, ?_⟩
      rw [hmove]
      exact hstands

end Progress

/-- The graph of a routine that was read from memory is that of its body. -/
theorem Routine.graph_of_decode {m : Memory} {address ramStart : UInt32} {r : Routine}
    (h : Routine.decode m address ramStart = .ok r) : Graph.ofBody r.body = .ok r.graph := by
  obtain ⟨convention, groups, code, -, hr⟩ := Routine.decode_ok_iff.mp h
  obtain ⟨g, hg, hr⟩ := bind_ok_iff.mp hr
  obtain ⟨p, -, hr⟩ := bind_ok_iff.mp hr
  obtain rfl := Except.ok.inj hr
  exact hg

/-- **The graph covers every run.** Let an activation of a routine that was read from memory have
come to some step of a run, with the calls that it made. If it enters its first block, then that block
is the one successor of the entry. If it enters another one, then that block is a successor of the
block entered last. If it is left, then the exit is a successor of the block entered last, and there
is one. -/
theorem graph_covers [Host σ] {memory : Memory} {address ramStart : UInt32} {routine : Routine}
    (hdecode : Routine.decode memory address ramStart = .ok routine) {p : Progress σ}
    {height first last : Nat} (h : p.Activates routine height first last) :
    (∀ l, p.LastEntered height first last .entry → p.Enters height last l →
      routine.graph.successors .entry = [.label l]) ∧
    (∀ a l, p.LastEntered height first last (.label a) → p.Enters height last l →
      .label l ∈ routine.graph.successors (.label a)) ∧
    (∀ a, p.LastEntered height first last (.label a) → p.Leaves height last →
      .exit ∈ routine.graph.successors (.label a)) ∧
    (p.Leaves height last → ∃ a, p.LastEntered height first last (.label a)) := by
  have hs : routine.Sound := Routine.decode_sound hdecode
  have hg := Routine.graph_of_decode hdecode
  obtain ⟨b, r, a, hlast, hr, hholds, hprogram, hstands⟩ := h.stands hs hg
  have hfetch : ∀ {op : Option Op}, p.fetched? height last = some op →
      routine.program.ops[a.pc]? = op := by
    intro op hop
    obtain ⟨hheight, hop⟩ := (Progress.fetched?_eq_some hr).mp hop
    rw [← hholds.eq_current hheight, hprogram] at hop
    exact hop
  have henters : ∀ {l : Label}, p.Enters height last l → ⟨b, .label l⟩ ∈ routine.graph.edges :=
    fun hl => (hstands.enter hs hg (hfetch hl)).1
  have hleaves : p.Leaves height last → ⟨b, .exit⟩ ∈ routine.graph.edges := fun hleave =>
    hstands.leave hs hg (hleave.imp hfetch (Or.imp hfetch hfetch))
  refine ⟨fun l hentry hl => ?_, fun k l hk hl => ?_, fun k hk hleave => ?_, fun hleave => ?_⟩
  · obtain rfl := hlast.unique hentry
    have hfirst := (Graph.mem_edges_entry hs.normal hg _).mp (henters hl)
    rw [hfirst]
    exact Graph.successors_entry hs.normal hg
  · obtain rfl := hlast.unique hk
    exact Graph.mem_successors.mpr (henters hl)
  · obtain rfl := hlast.unique hk
    exact Graph.mem_successors.mpr (hleaves hleave)
  · cases b with
    | label k => exact ⟨k, hlast⟩
    | exit => exact hlast.elim
    | entry => cases (Graph.mem_edges_entry hs.normal hg _).mp (hleaves hleave)

/-- A routine that calls another one until the answer is not zero. -/
def retrying : Machine Silent :=
  { memory := { bytes := #[0xC1, 0, 0, 0x81, 0x60, 0x81, 12, 0x22, 0x18, 0xFB, 0x31, 0,
      0xC1, 0, 0, 0x31, 1, 7] }
    stack := Stack.empty 16, ramStart := 0, host := {} }

theorem graph_covers_retrying :
    ∃ routine entered, retrying.enter 0 [] = (.ok routine, entered) ∧
      Routine.decode retrying.memory 0 0 = .ok routine ∧
      (Progress.running ⟨entered, .ofRoutine routine 0, []⟩).Activates routine 0 0 13 ∧
      routine.graph.successors .entry = [.label 0] ∧
      .label 1 ∈ routine.graph.successors (.label 0) ∧
      .exit ∈ routine.graph.successors (.label 1) := by
  -- In steps 3 to 5 the routine that was called enters and leaves its own block 0.
  have hrun : (match retrying.enter 0 [] with
      | (.ok routine, entered) =>
        decide (Routine.decode retrying.memory 0 0 = .ok routine ∧
          (List.range 14).map ((Progress.running ⟨entered, .ofRoutine routine 0, []⟩).fetched? 0) =
            [some (some (.enter 0)), some (some (.const 12)), some (some (.call 0)), none, none, none,
              some (some .push), some (some .pop), some (some (.const 0)), some (some (.compare .eq)),
              some (some (.jumpIf 0)), some (some (.enter 1)), some (some (.const 0)),
              some (some .ret)])
      | (.error _, _) => false) = true := by
    decide +kernel
  rcases henter : retrying.enter 0 [] with ⟨f | routine, entered⟩
  · rw [henter] at hrun
    cases hrun
  · rw [henter] at hrun
    obtain ⟨hdecode, hfetched⟩ := of_decide_eq_true hrun
    simp only [List.range_succ, List.range_zero, List.nil_append, List.cons_append, List.map_cons,
      List.map_nil, List.cons.injEq] at hfetched
    obtain ⟨h0, h1, h2, h3, h4, h5, h6, h7, h8, h9, h10, h11, h12, h13, -⟩ := hfetched
    have hactive : (Progress.running ⟨entered, .ofRoutine routine 0, []⟩).Activates routine 0 0 13 := by
      refine ⟨Nat.zero_le _, ⟨_, 0, rfl, rfl, rfl⟩, fun k _ hk => ?_⟩
      cases hafter : (Progress.running ⟨entered, .ofRoutine routine 0, []⟩).after 13 with
      | finished result m =>
        rw [Progress.fetched?, hafter] at h13
        cases h13
      | running r =>
        obtain ⟨r', hr'⟩ := Progress.lasts_of_running hafter k (Nat.lt_succ_of_le hk)
        exact ⟨r', hr', Nat.zero_le _⟩
    obtain ⟨hentry, -⟩ := graph_covers hdecode (hactive.before (Nat.le_refl 0) (Nat.zero_le 13))
    obtain ⟨-, hnext, -⟩ := graph_covers hdecode (hactive.before (Nat.zero_le 11) (by omega))
    obtain ⟨-, -, hleave, -⟩ := graph_covers hdecode hactive
    refine ⟨routine, entered, rfl, hdecode, hactive, ?_, ?_, ?_⟩
    · exact hentry 0 (fun k l hk hk' => by omega) h0
    · refine hnext 0 1 ⟨0, Nat.le_refl 0, by omega, h0, fun j l hj hj' hl => ?_⟩ h11
      unfold Progress.Enters at hl
      interval_cases j <;> simp_all
    · refine hleave 1 ⟨11, by omega, by omega, h11, fun j l hj hj' hl => ?_⟩ (Or.inr (Or.inl h13))
      obtain rfl : j = 12 := by omega
      cases h12.symm.trans hl

end StoryVM
