import StoryVM.Proofs.Blocks
import StoryVM.Proofs.Termination

/-! # Statements in a program

The program of a numbered body is made of pieces, one for each statement and in their order
(`ofBody_laysOut`). A piece is what the statement becomes when it is laid out on its own, moved to
where it stands.

* `Op.moved`, `Stmt.code_moved`: the position of a statement shows in the target of its skip only.
* `piecesOf`, `offset`: the pieces of statements, and where a piece begins.
* `exists_of_getElem?_ops`: an operation of a program is one of a statement, so what the
  operations of statements are (`Stmt.eq_skip_of_getElem?_code`, `Stmt.target?_of_mem_code`) says
  what those of programs are.
* `LaysOut`: the program, its pieces and its positions, told without the passes that made them. -/

namespace StoryVM

/-! ## Operations of one statement -/

/-- The operation in code that is moved by a distance. Labels are found by their number, so only a
skip notices. -/
def Op.moved (distance : Nat) : Op → Op
  | skipUnless target => skipUnless (distance + target)
  | op => op

theorem Op.moved_of_not_skip {op : Op} (h : ∀ target, op ≠ skipUnless target) (distance : Nat) :
    op.moved distance = op := by
  cases op with
  | skipUnless target => exact absurd rfl (h target)
  | _ => rfl

theorem Expr.not_mem_flatten {op : Op} (h : ∀ c : Expr, op ≠ c.op) (e : Expr) : op ∉ e.flatten := by
  intro hop
  obtain ⟨c, hc⟩ := e.exists_op_of_mem_flatten hop
  exact h c hc

theorem Expr.map_moved_flatten (e : Expr) (distance : Nat) :
    e.flatten.map (Op.moved distance) = e.flatten := by
  refine (List.map_congr_left fun op hop => Op.moved_of_not_skip ?_ distance).trans (List.map_id _)
  rintro target rfl
  exact e.skipUnless_not_mem_flatten target hop

namespace Stmt

/-- **A statement that is moved** keeps its operations; its skip is moved with it. -/
theorem flatten_moved (base : Nat) (s : Stmt) :
    s.flatten base = (s.flatten 0).map (List.map (Op.moved base)) := by
  have hexpr := fun e : Expr => e.map_moved_flatten base
  cases s with
  | branch cond guarded =>
    cases guarded with
    | ret value =>
      have htarget : base + cond.flatten.length + 1 + (value.flatten ++ [Op.ret]).length =
          base + (0 + cond.flatten.length + 1 + (value.flatten ++ [Op.ret]).length) := by omega
      simp only [flatten, Except.map, List.map_append, List.map_cons, List.map_nil, hexpr, Op.moved,
        htarget]
    | _ => simp [flatten, Except.map, hexpr, Op.moved]
  | _ => simp [flatten, Except.map, hexpr, Op.moved]

theorem code_moved (base : Nat) (s : Stmt) : s.code base = (s.code 0).map (Op.moved base) := by
  rw [code, code, flatten_moved]
  cases s.flatten 0 <;> rfl

@[simp] theorem code_label (base : Nat) (l : Label) : (label l).code base = [.enter l] := rfl

theorem code_ne_nil {s : Stmt} (h : s.GuardOk) (base : Nat) : s.code base ≠ [] := by
  cases s with
  | branch cond guarded =>
    rcases h cond guarded rfl with ⟨l, rfl⟩ | ⟨value, rfl⟩ <;>
      simp [code, flatten, Except.toOption]
  | _ => simp [code, flatten, Except.toOption]

/-- The start of a block is the only operation of its label. -/
theorem eq_label_of_mem_code {s : Stmt} {base : Nat} {l : Label} (h : .enter l ∈ s.code base) :
    s = .label l := by
  have hexpr : ∀ e : Expr, .enter l ∉ e.flatten :=
    Expr.not_mem_flatten fun c => by cases c <;> nofun
  cases s with
  | label k =>
    obtain rfl : l = k := by simpa [code, flatten, Except.toOption] using h
    rfl
  | branch cond guarded =>
    cases guarded <;> simp [code, flatten, Except.toOption, hexpr] at h
  | _ => simp [code, flatten, Except.toOption, hexpr] at h

/-- **A jump among the operations** is that of the statement. -/
theorem target?_of_mem_code {s : Stmt} {base : Nat} {l : Label} {op : Op}
    (hop : op = .jump l ∨ op = .jumpIf l) (h : op ∈ s.code base) : s.target? = some l := by
  have hexpr : ∀ e : Expr, op ∉ e.flatten := Expr.not_mem_flatten fun c => by
    rcases hop with rfl | rfl <;> cases c <;> nofun
  cases s with
  | branch cond guarded =>
    cases guarded <;> rcases hop with rfl | rfl <;>
      simp_all [code, flatten, Except.toOption, target?]
  | _ => rcases hop with rfl | rfl <;> simp_all [code, flatten, Except.toOption, target?]

/-- **A skip among the operations** is that of a guarded return. It stands between the condition and
the return. -/
theorem eq_skip_of_getElem?_code {s : Stmt} {base j target : Nat}
    (h : (s.code base)[j]? = some (.skipUnless target)) :
    ∃ cond value, s = .branch cond (.ret value) ∧ j = cond.flatten.length ∧
      s.code base = cond.flatten ++ .skipUnless target :: (value.flatten ++ [.ret]) := by
  have hmem := List.mem_of_getElem? h
  have htarget := skipUnless_of_mem_code hmem
  have hexpr := fun e : Expr => e.skipUnless_not_mem_flatten target
  cases s with
  | branch cond guarded =>
    cases guarded with
    | ret value =>
      have hcode : (branch cond (ret value)).code base =
          cond.flatten ++ .skipUnless target :: (value.flatten ++ [.ret]) := by
        rw [htarget]
        simp [code, flatten, Except.toOption]
        omega
      refine ⟨cond, value, rfl, ?_, hcode⟩
      rw [hcode] at h
      rcases Nat.lt_trichotomy j cond.flatten.length with hj | hj | hj
      · rw [List.getElem?_append_left hj] at h
        exact absurd (List.mem_of_getElem? h) (hexpr cond)
      · exact hj
      · obtain ⟨n, rfl⟩ := Nat.exists_eq_add_of_lt hj
        rw [List.getElem?_append_right (by omega), Nat.add_assoc, Nat.add_sub_cancel_left,
          List.getElem?_cons_succ] at h
        have hlast := List.mem_of_getElem? h
        simp [hexpr] at hlast
    | _ => simp [code, flatten, Except.toOption, hexpr] at hmem
  | _ => simp [code, flatten, Except.toOption, hexpr] at hmem

end Stmt

namespace Program

/-! ## Pieces -/

/-- Where a piece begins when pieces follow one another. -/
def offset (pieces : List (List Op)) (i : Nat) : Nat := (pieces.take i).flatten.length

/-- The pieces of statements of which the first stands at `base`. -/
def piecesOf (base : Nat) : List Stmt → List (List Op)
  | [] => []
  | s :: rest => s.code base :: piecesOf (base + (s.code base).length) rest

@[simp] theorem offset_zero (pieces : List (List Op)) : offset pieces 0 = 0 := rfl

@[simp] theorem offset_cons_succ (piece : List Op) (pieces : List (List Op)) (i : Nat) :
    offset (piece :: pieces) (i + 1) = piece.length + offset pieces i := by
  simp [offset]

theorem offset_succ {pieces : List (List Op)} {i : Nat} {piece : List Op}
    (h : pieces[i]? = some piece) : offset pieces (i + 1) = offset pieces i + piece.length := by
  simp [offset, List.take_add_one, h]

theorem offset_length (pieces : List (List Op)) :
    offset pieces pieces.length = pieces.flatten.length := by
  rw [offset, List.take_length]

theorem length_piecesOf (base : Nat) (stmts : List Stmt) :
    (piecesOf base stmts).length = stmts.length := by
  induction stmts generalizing base with
  | nil => rfl
  | cons s rest ih => rw [piecesOf, List.length_cons, List.length_cons, ih]

theorem flatten_piecesOf (base : Nat) (stmts : List Stmt) :
    (piecesOf base stmts).flatten = codeOf base stmts := by
  induction stmts generalizing base with
  | nil => rfl
  | cons s rest ih => rw [piecesOf, List.flatten_cons, ih, codeOf]

/-- **Each statement has its piece**, which stands where the pieces before it end. -/
theorem getElem?_piecesOf (base : Nat) (stmts : List Stmt) (i : Nat) :
    (piecesOf base stmts)[i]? =
      stmts[i]?.map fun s => s.code (base + offset (piecesOf base stmts) i) := by
  induction stmts generalizing base i with
  | nil => rfl
  | cons s rest ih =>
    cases i with
    | zero => simp [piecesOf]
    | succ i => simp [piecesOf, ih, Nat.add_assoc]

/-- What stands in a piece stands in the whole. -/
theorem getElem?_flatten_offset {pieces : List (List Op)} {i j : Nat} {piece : List Op}
    (h : pieces[i]? = some piece) (hj : j < piece.length) :
    pieces.flatten[offset pieces i + j]? = piece[j]? := by
  induction pieces generalizing i with
  | nil => cases h
  | cons first rest ih =>
    cases i with
    | zero =>
      obtain rfl : first = piece := by simpa using h
      simp [List.getElem?_append_left hj]
    | succ i =>
      rw [offset_cons_succ, Nat.add_assoc, List.flatten_cons,
        List.getElem?_append_right (Nat.le_add_right _ _), Nat.add_sub_cancel_left]
      exact ih (by simpa using h)

/-- **What stands in the whole** stands in one of the pieces. -/
theorem exists_of_getElem?_flatten {pieces : List (List Op)} {k : Nat} {op : Op}
    (h : pieces.flatten[k]? = some op) :
    ∃ i j piece, pieces[i]? = some piece ∧ piece[j]? = some op ∧ k = offset pieces i + j := by
  induction pieces generalizing k with
  | nil => simp at h
  | cons first rest ih =>
    rw [List.flatten_cons] at h
    by_cases hk : k < first.length
    · rw [List.getElem?_append_left hk] at h
      exact ⟨0, k, first, rfl, h, (Nat.zero_add k).symm⟩
    · rw [List.getElem?_append_right (Nat.not_lt.mp hk)] at h
      obtain ⟨i, j, piece, hpiece, hop, hkj⟩ := ih h
      refine ⟨i + 1, j, piece, hpiece, hop, ?_⟩
      rw [offset_cons_succ]
      omega

theorem le_of_mem_startsOf {base pc : Nat} {stmts : List Stmt} (h : pc ∈ startsOf base stmts) :
    base ≤ pc := by
  obtain ⟨i, -, rfl, -⟩ := enter_of_mem_startsOf h
  exact Nat.le_add_right base i

/-- **The start of a block** stands where the list of starts says, and nowhere else. -/
theorem getElem?_codeOf_enter (base : Nat) (stmts : List Stmt) (k : Nat) (l : Label) :
    (codeOf base stmts)[k]? = some (.enter l) ↔
      ∃ n : Nat, (labelsOf stmts)[n]? = some l ∧ (startsOf base stmts)[n]? = some (base + k) := by
  induction stmts generalizing base k with
  | nil => simp [codeOf, startsOf]
  | cons s rest ih =>
    have hlater : ∀ n : Nat, (startsOf (base + (s.code base).length) rest)[n]? = some (base + k) →
        (s.code base).length ≤ k := fun n hn => by
      have := le_of_mem_startsOf (List.mem_of_getElem? hn)
      omega
    have hrest : (s.code base).length ≤ k →
        ((codeOf base (s :: rest))[k]? = some (.enter l) ↔
          ∃ n : Nat, (labelsOf rest)[n]? = some l ∧
            (startsOf (base + (s.code base).length) rest)[n]? = some (base + k)) := by
      intro hk
      obtain ⟨j, rfl⟩ := Nat.exists_eq_add_of_le hk
      rw [codeOf, List.getElem?_append_right hk, Nat.add_sub_cancel_left, ih, Nat.add_assoc]
    cases hs : s.label? with
    | none =>
      rw [labelsOf_cons, startsOf, hs]
      by_cases hk : (s.code base).length ≤ k
      · exact hrest hk
      · constructor
        · intro h
          rw [codeOf, List.getElem?_append_left (Nat.not_le.mp hk)] at h
          rw [Stmt.eq_label_of_mem_code (List.mem_of_getElem? h)] at hs
          cases hs
        · rintro ⟨n, -, hn⟩
          exact absurd (hlater n hn) hk
    | some m =>
      obtain rfl := Stmt.mem_names_of_label? hs
      rw [labelsOf_cons, startsOf, hs]
      cases k with
      | zero =>
        constructor
        · intro h
          obtain rfl : m = l := by simpa [codeOf] using h
          exact ⟨0, rfl, rfl⟩
        · rintro ⟨_ | n, hl, hn⟩
          · obtain rfl : m = l := by simpa using hl
            rfl
          · exact absurd (hlater n (by simpa using hn)) (by simp)
      | succ k =>
        rw [hrest (by simp)]
        constructor
        · rintro ⟨n, hl, hn⟩
          exact ⟨n + 1, by simpa using hl, by simpa using hn⟩
        · rintro ⟨_ | n, hl, hn⟩
          · simp at hn
          · exact ⟨n, by simpa using hl, by simpa using hn⟩

/-! ## The program of a numbered body -/

/-- **A program that lays a body out** in pieces, one for each statement. -/
structure LaysOut (p : Program) (b : Body) (pieces : List (List Op)) : Prop where
  /-- The operations are the pieces one after the other, and nothing else. -/
  ops : p.ops.toList = pieces.flatten
  /-- There are as many pieces as statements. -/
  count : pieces.length = b.stmts.length
  /-- Each piece is what its statement becomes on its own, moved to where it stands. -/
  piece : ∀ (i : Nat) s, b.stmts[i]? = some s → ∃ own, s.flatten 0 = .ok own ∧ own ≠ [] ∧
    pieces[i]? = some (own.map (Op.moved (offset pieces i)))
  /-- The block of a label starts at the only operation that enters it. -/
  starts : ∀ l < b.labelCount, ∃ position, p.start l = .ok position ∧
    ∀ k : Nat, p.ops[k]? = some (.enter l) ↔ k = position
  /-- The first block starts at the first operation. -/
  first : p.start 0 = .ok 0
  /-- There are no other blocks. -/
  missing : ∀ l, b.labelCount ≤ l → p.start l = .error (.defect (.missingLabel l))
  /-- A skip is that of a guarded return. Behind it stand the operations of the return, and it leads
  behind the last of them, which is where the next statement begins or the program ends. -/
  skips : ∀ k target : Nat, p.ops[k]? = some (.skipUnless target) →
    ∃ (i : Nat) (cond value : Expr), b.stmts[i]? = some (.branch cond (.ret value)) ∧
      pieces[i]? = some (cond.flatten ++ .skipUnless target :: (value.flatten ++ [.ret])) ∧
      k = offset pieces i + cond.flatten.length ∧ target = offset pieces (i + 1) ∧
      0 < target ∧ p.ops[target - 1]? = some .ret ∧
      (b.stmts.length = i + 1 ∧ target = p.ops.size ∨
        ∃ op more, pieces[i + 1]? = some (op :: more) ∧ p.ops[target]? = some op)
  /-- Jumps lead to labels of the body. -/
  jumps : ∀ (k : Nat) l, p.ops[k]? = some (.jump l) ∨ p.ops[k]? = some (.jumpIf l) →
    l < b.labelCount

section Layout
variable {b : Body} {p : Program} (hops : p.ops.toList = codeOf 0 b.stmts)
include hops

theorem ops_eq_flatten : p.ops.toList = (piecesOf 0 b.stmts).flatten := by
  rw [hops, flatten_piecesOf]

theorem getElem?_ops_of_piece {i j : Nat} {piece : List Op}
    (h : (piecesOf 0 b.stmts)[i]? = some piece) (hj : j < piece.length) :
    p.ops[offset (piecesOf 0 b.stmts) i + j]? = piece[j]? := by
  rw [← Array.getElem?_toList, ops_eq_flatten hops, getElem?_flatten_offset h hj]

/-- **An operation** is one of a statement. -/
theorem exists_of_getElem?_ops {k : Nat} {op : Op} (h : p.ops[k]? = some op) :
    ∃ (i j : Nat) (s : Stmt), b.stmts[i]? = some s ∧
      (piecesOf 0 b.stmts)[i]? = some (s.code (offset (piecesOf 0 b.stmts) i)) ∧
      (s.code (offset (piecesOf 0 b.stmts) i))[j]? = some op ∧
      k = offset (piecesOf 0 b.stmts) i + j := by
  rw [← Array.getElem?_toList, ops_eq_flatten hops] at h
  obtain ⟨i, j, piece, hpiece, hop, hk⟩ := exists_of_getElem?_flatten h
  have hstmt := getElem?_piecesOf 0 b.stmts i
  rw [hpiece, Nat.zero_add] at hstmt
  obtain ⟨s, hs, rfl⟩ := Option.map_eq_some_iff.mp hstmt.symm
  exact ⟨i, j, s, hs, hpiece, hop, hk⟩

/-- **Behind a piece** stands the first operation of the next one, or the program ends. -/
theorem behind_piece (hg : ∀ s ∈ b.stmts, s.GuardOk) {i : Nat} (hi : i < b.stmts.length) :
    b.stmts.length = i + 1 ∧ offset (piecesOf 0 b.stmts) (i + 1) = p.ops.size ∨
      ∃ op more, (piecesOf 0 b.stmts)[i + 1]? = some (op :: more) ∧
        p.ops[offset (piecesOf 0 b.stmts) (i + 1)]? = some op := by
  by_cases hlast : b.stmts.length = i + 1
  · refine Or.inl ⟨hlast, ?_⟩
    rw [← hlast, ← length_piecesOf 0, offset_length, ← ops_eq_flatten hops, Array.length_toList]
  · have hnext : i + 1 < b.stmts.length := by omega
    have hpiece := getElem?_piecesOf 0 b.stmts (i + 1)
    rw [List.getElem?_eq_getElem hnext, Option.map_some] at hpiece
    obtain ⟨op, more, hcode⟩ := List.exists_cons_of_ne_nil
      (Stmt.code_ne_nil (hg _ (List.getElem_mem hnext)) (0 + offset (piecesOf 0 b.stmts) (i + 1)))
    rw [hcode] at hpiece
    exact Or.inr ⟨op, more, hpiece, getElem?_ops_of_piece hops hpiece (Nat.succ_pos _)⟩

omit hops in
theorem start_ok_iff (hstarts : p.starts.toList = startsOf 0 b.stmts) {l : Label} {position : Nat} :
    p.start l = .ok position ↔ (startsOf 0 b.stmts)[l]? = some position := by
  unfold start
  rw [← hstarts, Array.getElem?_toList]
  cases p.starts[l]? <;> simp

/-- **An operation that enters the block of a label** stands where the block starts. -/
theorem getElem?_ops_enter (hlabels : labelsOf b.stmts = List.range b.labelCount)
    (hstarts : p.starts.toList = startsOf 0 b.stmts) {k : Nat} {l : Label} :
    p.ops[k]? = some (.enter l) ↔ p.start l = .ok k := by
  rw [← Array.getElem?_toList, hops, getElem?_codeOf_enter, start_ok_iff hstarts, hlabels,
    Nat.zero_add]
  constructor
  · rintro ⟨n, hn, hk⟩
    obtain ⟨hlt, rfl⟩ := List.getElem?_eq_some_iff.mp hn
    rwa [List.getElem_range]
  · intro hk
    refine ⟨l, ?_, hk⟩
    have hlt := (List.getElem?_eq_some_iff.mp hk).1
    rw [length_startsOf, hlabels, List.length_range] at hlt
    exact List.getElem?_range hlt

/-- **The pieces of a normal body's program.** -/
theorem laysOut_of_normal (hb : b.Normal) (hstarts : p.starts.toList = startsOf 0 b.stmts)
    (htargets : ∀ s ∈ b.stmts, ∀ l, s.target? = some l → l < b.labelCount) :
    p.LaysOut b (piecesOf 0 b.stmts) where
  ops := ops_eq_flatten hops
  count := length_piecesOf 0 b.stmts
  piece i s hs := by
    have hguard := hb.guards s (List.mem_of_getElem? hs)
    refine ⟨s.code 0, Stmt.flatten_of_guardOk hguard 0, Stmt.code_ne_nil hguard 0, ?_⟩
    rw [getElem?_piecesOf, hs, Option.map_some, Nat.zero_add, Stmt.code_moved]
  starts l hl := by
    have hlt : l < (startsOf 0 b.stmts).length := by
      rwa [length_startsOf, hb.labels, List.length_range]
    have hstart := (start_ok_iff hstarts).mpr (List.getElem?_eq_getElem hlt)
    refine ⟨_, hstart, fun k => ?_⟩
    rw [getElem?_ops_enter hops hb.labels hstarts, hstart, Except.ok.injEq]
    exact eq_comm
  first := by
    obtain ⟨rest, hrest⟩ := hb.head
    rw [start_ok_iff hstarts, hrest]
    rfl
  missing l hl := by
    have hnone : p.starts[l]? = none := by
      rw [← Array.getElem?_toList, hstarts, List.getElem?_eq_none_iff, length_startsOf, hb.labels,
        List.length_range]
      exact hl
    rw [start, hnone]
  skips k target h := by
    obtain ⟨i, j, s, hs, hpiece, hop, rfl⟩ := exists_of_getElem?_ops hops h
    obtain ⟨cond, value, rfl, rfl, hcode⟩ := Stmt.eq_skip_of_getElem?_code hop
    have htarget := Stmt.skipUnless_of_mem_code (List.mem_of_getElem? hop)
    rw [← offset_succ hpiece] at htarget
    have hlength : target = offset (piecesOf 0 b.stmts) i +
        (cond.flatten.length + value.flatten.length + 1) + 1 := by
      rw [htarget, offset_succ hpiece, hcode]
      simp
      omega
    rw [hcode] at hpiece
    refine ⟨i, cond, value, hs, hpiece, rfl, htarget, by omega, ?_, ?_⟩
    · rw [hlength, Nat.add_sub_cancel, getElem?_ops_of_piece hops hpiece (by simp; omega)]
      simp [Nat.add_assoc]
    · rw [htarget]
      exact behind_piece hops hb.guards (List.getElem?_eq_some_iff.mp hs).1
  jumps k l h := by
    obtain ⟨op, hkind, hop⟩ : ∃ op, (op = .jump l ∨ op = .jumpIf l) ∧ p.ops[k]? = some op := by
      rcases h with h | h
      · exact ⟨_, .inl rfl, h⟩
      · exact ⟨_, .inr rfl, h⟩
    obtain ⟨i, j, s, hs, -, hop, -⟩ := exists_of_getElem?_ops hops hop
    exact htargets s (List.mem_of_getElem? hs) l
      (Stmt.target?_of_mem_code hkind (List.mem_of_getElem? hop))

end Layout

/-- **The program of a numbered body.** A body that starts with a label and whose labels are
numbered in statement order has a program if it has a graph. The program is made of one piece for
each statement, the blocks of the labels start where they are entered, skips lead behind the guarded
return that they belong to, and jumps lead to labels of the body. -/
theorem ofBody_laysOut {b : Body} (hlabels : labelsOf b.stmts = List.range b.labelCount)
    (hhead : ∃ l rest, b.stmts = .label l :: rest) {g : Graph} (hg : Graph.ofBody b = .ok g) :
    ∃ p pieces, ofBody b g = .ok p ∧ p.LaysOut b pieces := by
  have hstmts := Graph.guards_of_ofBody hg
  have hb := Body.normal_of_numbered hlabels hhead hstmts
  obtain ⟨g', p, hg', hp, hops, hstarts⟩ := ofBody_normal hb
  obtain rfl : g = g' := Except.ok.inj (hg.symm.trans hg')
  exact ⟨p, _, hp, laysOut_of_normal hops hb hstarts fun s hs => (hstmts s hs).2⟩

theorem ofBody_laysOut_looping :
    labelsOf Graph.looping.stmts = List.range Graph.looping.labelCount ∧
    (∃ l rest, Graph.looping.stmts = .label l :: rest) ∧
    ∃ g p pieces, Graph.ofBody Graph.looping = .ok g ∧ ofBody Graph.looping g = .ok p ∧
      p.LaysOut Graph.looping pieces := by
  have hhead : ∃ l rest, Graph.looping.stmts = .label l :: rest := ⟨0, _, rfl⟩
  obtain ⟨g, hg⟩ : ∃ g, Graph.ofBody Graph.looping = .ok g := ⟨_, rfl⟩
  obtain ⟨p, pieces, hp, hpieces⟩ := ofBody_laysOut rfl hhead hg
  exact ⟨rfl, hhead, g, p, pieces, hg, hp, hpieces⟩

end Program

end StoryVM
