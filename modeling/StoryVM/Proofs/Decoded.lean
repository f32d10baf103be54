import StoryVM.Proofs.Binding
import StoryVM.Proofs.Layout
import StoryVM.Proofs.Lowering
import StoryVM.Routine.Decode

/-! # Routines read from memory

The body of a routine that was read from memory is the normal form of its code, with addresses for
labels (`decode_ok_iff`). Such a body is normal and scoped, and the routine's program is its layout
(`decode_sound`).

* `Code.Closed`: all jumps lead to instructions; this is what finishing a body checks
  (`Bound.finish`).
* `Code.Proper.wellLabelled`: code with distinct addresses and no stray jump is well labelled. -/

namespace StoryVM

/-! ## Code -/

theorem Effect.Proper.of_mem_stmts {locals : List Local} {lab : UInt32 → Label} {e : Effect}
    (h : e.Proper locals) {s : Stmt} (hs : s ∈ e.stmts lab) :
    s.label? = none ∧ s.GuardOk ∧ s.Scoped locals ∧
      ∀ l ∈ s.names, ∃ a, e.target? = some a ∧ l = lab a := by
  cases e with
  | nop => simp at hs
  | stmt t =>
    obtain ⟨hn, hg, hsc⟩ := h
    obtain rfl : s = t := by simpa [Effect.stmts] using hs
    refine ⟨?_, hg, hsc, by simp [hn]⟩
    cases s <;> simp_all [Stmt.names, Stmt.label?]
  | jump target =>
    obtain rfl : s = .jump (lab target) := by simpa [Effect.stmts] using hs
    refine ⟨rfl, by rintro _ _ ⟨⟩, trivial, fun l hl => ⟨target, rfl, ?_⟩⟩
    simpa [Stmt.names] using hl
  | branch cond target =>
    obtain rfl : s = .branch cond (.jump (lab target)) := by simpa [Effect.stmts] using hs
    refine ⟨rfl, ?_, ⟨h, trivial⟩, fun l hl => ⟨target, rfl, ?_⟩⟩
    · rintro _ _ ⟨⟩
      exact Or.inl ⟨_, rfl⟩
    · simpa [Stmt.names] using hl

theorem Effect.Proper.map_relabel {locals : List Local} {e : Effect} (h : e.Proper locals)
    (lab : UInt32 → Label) (f : Label → Label) :
    (e.stmts lab).map (Stmt.relabel f) = e.stmts (f ∘ lab) := by
  cases e with
  | nop => rfl
  | stmt s =>
    have hid : s.relabel f = s.relabel id :=
      Stmt.relabel_congr fun l hl => by simp [h.1] at hl
    rw [Effect.stmts, List.map_singleton, hid]
    exact congrArg (fun t => [t]) (Transform.stmt_default s)
  | jump target => rfl
  | branch cond target =>
    simp [Effect.stmts, Stmt.relabel, Transform.stmt, Transform.expr_of_node_id]

namespace Code

/-- All jumps of the code lead to its instructions. -/
def Closed (code : Code) : Prop := ∀ a ∈ code.targets, a ∈ code.addresses

/-- What the instructions stand for is proper. -/
def Proper (locals : List Local) (code : Code) : Prop := ∀ p ∈ code, p.2.Proper locals

variable {code : Code} {locals : List Local} {lab : UInt32 → Label}

theorem mem_labelled {s : Stmt} : s ∈ code.labelled lab ↔
    ∃ p ∈ code, s = .label (lab p.1) ∨ s ∈ p.2.stmts lab := by
  simp [labelled]

theorem Proper.labelsOf_labelled (h : code.Proper locals) (lab : UInt32 → Label) :
    labelsOf (code.labelled lab) = code.addresses.map lab := by
  induction code with
  | nil => rfl
  | cons p rest ih =>
    have hnone : labelsOf (p.2.stmts lab) = [] := by
      rw [labelsOf, List.filterMap_eq_nil_iff]
      exact fun s hs => ((h p List.mem_cons_self).of_mem_stmts hs).1
    have hcons : labelled lab (p :: rest) = .label (lab p.1) :: (p.2.stmts lab ++ labelled lab rest) :=
      rfl
    rw [hcons, labelsOf_cons, labelsOf_append, hnone, ih fun q hq => h q (List.mem_cons_of_mem p hq)]
    rfl

/-- **Code with distinct addresses and no stray jump is well labelled**, whatever numbers its
addresses have. -/
theorem Proper.wellLabelled (h : code.Proper locals) (hc : code.Closed)
    (hl : (code.addresses.map lab).Nodup) : Body.Labelled (code.labelled lab) where
  nodup := by rwa [h.labelsOf_labelled]
  named s hs l hls := by
    rw [h.labelsOf_labelled]
    obtain ⟨p, hp, rfl | hs⟩ := mem_labelled.mp hs
    · obtain rfl : l = lab p.1 := by simpa [Stmt.names] using hls
      exact List.mem_map_of_mem (List.mem_map_of_mem hp)
    · obtain ⟨-, -, -, hn⟩ := (h p hp).of_mem_stmts hs
      obtain ⟨a, ha, rfl⟩ := hn l hls
      exact List.mem_map_of_mem (hc a (List.mem_filterMap.mpr ⟨p, hp, ha⟩))
  guards s hs := by
    obtain ⟨p, hp, rfl | hs⟩ := mem_labelled.mp hs
    · rintro _ _ ⟨⟩
    · exact ((h p hp).of_mem_stmts hs).2.1

theorem Proper.scoped_of_mem (h : code.Proper locals) {s : Stmt} (hs : s ∈ code.labelled lab) :
    s.Scoped locals := by
  obtain ⟨p, hp, rfl | hs⟩ := mem_labelled.mp hs
  · trivial
  · exact ((h p hp).of_mem_stmts hs).2.2.1

theorem Proper.labelled_relabel (h : code.Proper locals) (lab : UInt32 → Label)
    (f : Label → Label) :
    (code.labelled lab).map (Stmt.relabel f) = code.labelled (f ∘ lab) := by
  rw [labelled, List.map_flatMap]
  refine List.flatMap_congr fun p hp => ?_
  rw [List.map_cons, (h p hp).map_relabel]
  rfl

end Code

theorem Scope.lowerAll_proper {s : Scope} {locals : List Local} (h : s.Within locals)
    (instrs : List Instr) : Yields (s.lowerAll instrs) (Code.Proper locals) := by
  induction instrs with
  | nil => exact .ok (by simp [Code.Proper])
  | cons i rest ih =>
    refine .bind (s.lower_proper h i) fun e he => .bind ih fun more hmore => .pure ?_
    rintro p hp
    rcases List.mem_cons.mp hp with rfl | hp
    · exact he
    · exact hmore p hp

/-! ## Finishing a body -/

namespace Binder

variable {b : Binder} {code : Code}

/-- The labels of a binder are the addresses it knows, renamed. -/
theorem Table.exists_renaming {placed : List UInt32} (h : b.Table placed) :
    ∃ f : Label → Label, Function.Injective f ∧ ∀ a ∈ b.labels, f (b.labelOf a) = a.toNat := by
  choose address haddress using h.onto
  refine ⟨fun l => if hl : l < b.draft.marked.size then (address l hl).toNat else 2 ^ 32 + l,
    fun l l' he => ?_, fun a ha => ?_⟩
  · have hlt : ∀ a : UInt32, a.toNat < 2 ^ 32 := UInt32.toNat_lt
    dsimp only at he
    split at he <;> split at he
    · next hl hl' =>
      have ha := haddress l hl
      rw [UInt32.toNat_inj.mp he, haddress l' hl'] at ha
      exact (Option.some.inj ha).symm
    · exact absurd he (Nat.lt_of_lt_of_le (hlt _) (Nat.le_add_right _ _)).ne
    · exact absurd he (Nat.lt_of_lt_of_le (hlt _) (Nat.le_add_right _ _)).ne'
    · exact Nat.add_left_cancel he
  · obtain ⟨l, hl⟩ := Option.ne_none_iff_exists'.mp (mem_labels_iff.mp ha)
    have hof : b.labelOf a = l := by rw [labelOf, hl]; rfl
    have hlt := h.lt a l hl
    dsimp only
    rw [hof, dif_pos hlt, h.inj a (address l hlt) l hl (haddress l hlt)]

theorem Bound.labelOf_nodup (h : b.Bound code) : (code.addresses.map b.labelOf).Nodup := by
  obtain ⟨f, -, hf⟩ := h.table.exists_renaming
  refine h.nodup.map_on fun a ha a' ha' he => ?_
  have hfa := hf a (h.table.placed a ha)
  rw [he, hf a' (h.table.placed a' ha')] at hfa
  exact (UInt32.toNat_inj.mp hfa).symm

/-- The label of an address has no place if the address is jumped to and has no instruction. -/
theorem Bound.unmarked_iff (h : b.Bound code) {a : UInt32} :
    (∃ l, b.labels[a]? = some l ∧ b.draft.isMarked l = false) ↔
      a ∈ code.targets ∧ a ∉ code.addresses := by
  constructor
  · rintro ⟨l, hl, hmarked⟩
    have hnot : a ∉ code.addresses := by
      rw [← h.table.marked a l hl, hmarked]
      nofun
    have hmem : a ∈ b.labels := mem_labels_iff.mpr (by simp [hl])
    exact ⟨((h.known a).mp hmem).resolve_left hnot, hnot⟩
  · rintro ⟨htarget, hnot⟩
    have hmem : a ∈ b.labels := (h.known a).mpr (Or.inr htarget)
    obtain ⟨l, hl⟩ := Option.ne_none_iff_exists'.mp (mem_labels_iff.mp hmem)
    exact ⟨l, hl, Bool.eq_false_iff.mpr fun hmarked => hnot ((h.table.marked a l hl).mp hmarked)⟩

theorem Bound.stray?_eq_none_iff (h : b.Bound code) : b.stray? = none ↔ code.Closed := by
  simp only [stray?, Option.map_eq_none_iff, List.find?_eq_none, Bool.not_eq_true']
  constructor
  · intro hall a ha
    by_contra hnot
    obtain ⟨l, hl, hmarked⟩ := h.unmarked_iff.mpr ⟨ha, hnot⟩
    exact hall (a, l) (Std.TreeMap.mem_toList_iff_getElem?_eq_some.mpr hl) hmarked
  · rintro hc ⟨a, l⟩ hp hmarked
    have hl := Std.TreeMap.mem_toList_iff_getElem?_eq_some.mp hp
    obtain ⟨ha, hnot⟩ := h.unmarked_iff.mp ⟨l, hl, hmarked⟩
    exact hnot (hc a ha)

theorem Bound.draft_finish (h : b.Bound code) (hc : code.Closed) :
    b.draft.finish = .ok (Body.normalize (code.labelled b.labelOf) b.draft.locals.toList) := by
  refine Draft.finish_ok_iff.mpr ⟨fun l hl => ?_, by rw [h.stmts]⟩
  obtain ⟨a, ha⟩ := h.table.onto l hl
  refine (h.table.marked a l ha).mpr ?_
  rcases (h.known a).mp (mem_labels_iff.mpr (by simp [ha])) with hm | hm
  · exact hm
  · exact hc a hm

/-- **Finishing a body** succeeds if all jumps lead to instructions, with the normal form of the
code. Otherwise a jump that does not is reported. -/
theorem Bound.finish {locals : List Local} (h : b.Bound code) (hp : code.Proper locals) :
    (code.Closed → b.finish =
      .ok (Body.normalize (code.labelled UInt32.toNat) b.draft.locals.toList)) ∧
    (¬ code.Closed → ∃ t, b.finish = .error (.decode b.routine (.invalidBranchTarget t))) := by
  refine ⟨fun hc => ?_, fun hc => ?_⟩
  · obtain ⟨f, hinj, hf⟩ := h.table.exists_renaming
    have hnames : code.labelled (f ∘ b.labelOf) = code.labelled UInt32.toNat :=
      Code.labelled_congr (fun a ha => hf a ((h.known a).mpr (Or.inl ha)))
        fun a ha => hf a ((h.known a).mpr (Or.inr ha))
    rw [Binder.finish, h.stray?_eq_none_iff.mpr hc]
    refine (h.draft_finish hc).trans ?_
    rw [← Body.normalize_relabel hinj (hp.wellLabelled hc h.labelOf_nodup), hp.labelled_relabel,
      hnames]
  · obtain ⟨t, ht⟩ := Option.ne_none_iff_exists'.mp (h.stray?_eq_none_iff.not.mpr hc)
    exact ⟨t, by rw [Binder.finish, ht]⟩

/-- **A stream that was bound** has distinct addresses, all of them new, and a meaning for every
instruction. -/
theorem Bound.of_bindAll {instrs : List Instr} (h : b.Bound code) {b' : Binder}
    (hb : b.bindAll instrs = .ok b') :
    (code.addresses ++ instrs.map (·.address)).Nodup ∧
      ∃ more, b.scope.lowerAll instrs = .ok more := by
  induction instrs generalizing b code with
  | nil => exact ⟨by simpa using h.nodup, [], rfl⟩
  | cons i rest ih =>
    by_cases hi : i.address ∈ code.addresses
    · obtain ⟨l, hl⟩ := h.bind_again hi
      simp [Binder.bindAll, hl] at hb
    · obtain ⟨hok, herr⟩ := h.bind hi
      cases he : b.scope.lower i with
      | error cause =>
        obtain ⟨b₁, hb₁⟩ := herr cause he
        simp [Binder.bindAll, hb₁] at hb
      | ok e =>
        obtain ⟨b₁, hb₁, hbound, hsame⟩ := hok e he
        simp only [Binder.bindAll, hb₁] at hb
        obtain ⟨hnodup, more, hmore⟩ := ih hbound hb
        refine ⟨by simpa using hnodup, (i.address, e) :: more, ?_⟩
        rw [hsame.scope] at hmore
        simp only [Scope.lowerAll, he, hmore]
        rfl

/-! ## Declaring locals -/

/-- A binder that has declared locals and bound nothing. -/
structure Fresh (b : Binder) : Prop where
  labels : b.labels = ∅
  stmts : b.draft.stmts = #[]
  marked : b.draft.marked = #[]
  within : b.scope.Within b.draft.locals.toList

theorem Fresh.bound (h : b.Fresh) : b.Bound [] where
  table := by
    refine ⟨?_, ?_, ?_, ?_, ?_⟩ <;> simp [h.labels, h.marked, Code.addresses]
  nodup := List.nodup_nil
  known a := by simp [h.labels, Code.addresses, Code.targets]
  stmts := by simp [h.stmts, Code.labelled]

theorem Fresh.declare (h : b.Fresh) (p : Placement) : (b.declare p).Fresh where
  labels := h.labels
  stmts := h.stmts
  marked := h.marked
  within a var ha := by
    simp only [Binder.declare, Draft.declareLocal, Array.toList_push] at ha ⊢
    rw [Std.TreeMap.getElem?_insert] at ha
    split at ha
    · cases ha
      simp
    · have hold := h.within a var ha
      rwa [List.getElem?_append_left (List.getElem?_eq_some_iff.mp hold).1]

end Binder

/-- The locals of groups, in the order of declaration. -/
def LocalGroup.declared (groups : List LocalGroup) : List Local :=
  (groups.flatMap fun g => List.replicate g.count g.width).mapIdx Local.mk

theorem LocalGroup.map_width_layout (address : Nat) (groups : List LocalGroup) :
    (layout address groups).map (·.width) = groups.flatMap fun g => List.replicate g.count g.width := by
  induction groups generalizing address with
  | nil => rfl
  | cons g rest ih =>
    rw [layout, List.map_append, ih, List.flatMap_cons, placements, List.map_map]
    congr 1
    exact List.eq_replicate_iff.mpr ⟨by simp, by simp⟩

theorem Binder.foldl_declare {b : Binder} (h : b.Fresh) (hl : b.draft.locals = #[])
    (ps : List Placement) :
    (ps.foldl declare b).Fresh ∧ (ps.foldl declare b).routine = b.routine ∧
      (ps.foldl declare b).draft.locals.toList = (ps.map (·.width)).mapIdx Local.mk := by
  induction ps using List.reverseRecOn with
  | nil => exact ⟨h, rfl, by simp [hl]⟩
  | append_singleton ps p ih =>
    obtain ⟨hfresh, hroutine, hlocals⟩ := ih
    rw [List.foldl_append, List.foldl_cons, List.foldl_nil]
    refine ⟨hfresh.declare p, hroutine, ?_⟩
    have hsize : (ps.foldl declare b).draft.locals.size = ps.length := by
      rw [← Array.length_toList, hlocals, List.length_mapIdx, List.length_map]
    rw [List.map_append, List.map_singleton, List.mapIdx_concat, ← hlocals, List.length_map, ← hsize]
    exact Array.toList_push

namespace Routine

/-- **The binder of a routine** starts without code, and its locals are those of the groups. -/
theorem binder_spec (address ramStart : UInt32) (groups : List LocalGroup) :
    (binder address ramStart groups).Fresh ∧ (binder address ramStart groups).routine = address ∧
      (binder address ramStart groups).draft.locals.toList = LocalGroup.declared groups := by
  have hfresh : Binder.Fresh { routine := address, scope := { ramStart := ramStart } } :=
    ⟨rfl, rfl, rfl, fun a var ha => by simp at ha⟩
  rw [LocalGroup.declared, ← LocalGroup.map_width_layout 0]
  exact Binder.foldl_declare hfresh rfl _

variable {m : Memory} {address ramStart : UInt32} {convention : Convention}
  {groups : List LocalGroup} {code : Code} {instrs : List Instr} {b : Binder}

/-- The body of code: its normal form, with addresses for labels. -/
def bodyOf (groups : List LocalGroup) (code : Code) : Body :=
  Body.normalize (code.labelled UInt32.toNat) (LocalGroup.declared groups)

/-- **A binder that has bound the instructions of a routine.** -/
structure Binds (address ramStart : UInt32) (groups : List LocalGroup) (instrs : List Instr)
    (b : Binder) (code : Code) : Prop where
  lower : (binder address ramStart groups).scope.lowerAll instrs = .ok code
  bound : b.Bound code
  proper : code.Proper (LocalGroup.declared groups)
  routine : b.routine = address
  locals : b.draft.locals.toList = LocalGroup.declared groups

theorem bindAll_ok (hb : (binder address ramStart groups).bindAll instrs = .ok b) :
    ∃ code, Binds address ramStart groups instrs b code := by
  obtain ⟨hfresh, hroutine, hlocals⟩ := binder_spec address ramStart groups
  obtain ⟨hnodup, code, hlower⟩ := hfresh.bound.of_bindAll hb
  obtain ⟨b', hb', hbound, hsame⟩ := (hfresh.bound.bindAll hnodup).1 code hlower
  obtain rfl : b = b' := Except.ok.inj (hb.symm.trans hb')
  rw [List.nil_append] at hbound
  exact ⟨code, hlower, hbound, Scope.lowerAll_proper (hlocals ▸ hfresh.within) _ code hlower,
    hsame.routine.trans hroutine, hsame.locals ▸ hlocals⟩

/-- **Binding instructions with distinct addresses** fails only at one that has no meaning. -/
theorem bindAll_error (hnodup : (instrs.map (·.address)).Nodup) {f : Fault}
    (hf : (binder address ramStart groups).bindAll instrs = .error f) :
    ∃ cause, f = .decode address cause := by
  obtain ⟨hfresh, hroutine, -⟩ := binder_spec address ramStart groups
  have hnew : (Code.addresses [] ++ instrs.map (·.address)).Nodup := hnodup
  obtain ⟨hok, herr⟩ := hfresh.bound.bindAll hnew
  cases hlower : (binder address ramStart groups).scope.lowerAll instrs with
  | ok code =>
    obtain ⟨b, hb, -⟩ := hok code hlower
    rw [hb] at hf
    cases hf
  | error cause =>
    rw [herr cause hlower, hroutine] at hf
    exact ⟨cause, (Except.error.inj hf).symm⟩

theorem Binds.finish (h : Binds address ramStart groups instrs b code) :
    (code.Closed → b.finish = .ok (bodyOf groups code)) ∧
      (¬ code.Closed → ∃ t, b.finish = .error (.decode address (.invalidBranchTarget t))) := by
  have hfinish := h.bound.finish h.proper
  rwa [h.locals, h.routine] at hfinish

/-- **The code of a routine**: the format of its bytes was read to the end, every instruction has a
meaning, no address has two instructions, and all jumps lead to instructions. -/
structure HasCode (m : Memory) (address ramStart : UInt32) (convention : Convention)
    (groups : List LocalGroup) (code : Code) : Prop where
  reads : ∃ c, header m address = .ok (convention, groups, c) ∧
    (Listing.scan address c).fault = none ∧
    (binder address ramStart groups).scope.lowerAll (Listing.scan address c).instrs = .ok code
  nodup : code.addresses.Nodup
  closed : code.Closed

theorem HasCode.proper (h : HasCode m address ramStart convention groups code) :
    code.Proper (LocalGroup.declared groups) := by
  obtain ⟨c, -, -, hlower⟩ := h.reads
  obtain ⟨hfresh, -, hlocals⟩ := binder_spec address ramStart groups
  exact Scope.lowerAll_proper (hlocals ▸ hfresh.within) _ code hlower

theorem HasCode.wellLabelled (h : HasCode m address ramStart convention groups code) :
    Body.Labelled (code.labelled UInt32.toNat) :=
  h.proper.wellLabelled h.closed (h.nodup.map fun _ _ => UInt32.toNat_inj.mp)

/-- Reading a routine, once its header and its instructions have been read and bound. -/
theorem decode_eq_finish {c : Cursor} (hheader : header m address = .ok (convention, groups, c))
    (hfault : (Listing.scan address c).fault = none)
    (hb : (binder address ramStart groups).bindAll (Listing.scan address c).instrs = .ok b) :
    decode m address ramStart = b.finish >>= Routine.ofBody convention address := by
  simp only [decode, hheader, Bind.bind, Except.bind, hb, hfault]

/-- **What reading a routine comes to**: it succeeds if the bytes at the address have code, and its
body is the body of the code. -/
theorem decode_ok_iff {r : Routine} : decode m address ramStart = .ok r ↔
    ∃ convention groups code, HasCode m address ramStart convention groups code ∧
      Routine.ofBody convention address (bodyOf groups code) = .ok r := by
  constructor
  · intro h
    unfold decode at h
    obtain ⟨⟨convention, groups, c⟩, hheader, h⟩ := bind_ok_iff.mp h
    obtain ⟨b, hb, h⟩ := bind_ok_iff.mp h
    obtain ⟨code, hbinds⟩ := bindAll_ok hb
    cases hfault : (Listing.scan address c).fault with
    | some f => simp [hfault, throw, throwThe, MonadExceptOf.throw, Bind.bind, Except.bind] at h
    | none =>
      simp only [hfault] at h
      obtain ⟨body, hbody, h⟩ := bind_ok_iff.mp h
      obtain ⟨hfin, hstray⟩ := hbinds.finish
      by_cases hc : code.Closed
      · obtain rfl := Except.ok.inj ((hfin hc).symm.trans hbody)
        exact ⟨convention, groups, code,
          ⟨⟨c, hheader, hfault, hbinds.lower⟩, hbinds.bound.nodup, hc⟩, h⟩
      · obtain ⟨t, ht⟩ := hstray hc
        rw [ht] at hbody
        cases hbody
  · rintro ⟨convention, groups, code, hcode, hr⟩
    obtain ⟨c, hheader, hfault, hlower⟩ := hcode.reads
    obtain ⟨hfresh, -, -⟩ := binder_spec address ramStart groups
    have hnodup : (Code.addresses [] ++ (Listing.scan address c).instrs.map (·.address)).Nodup := by
      rw [← Scope.addresses_of_lowerAll hlower]
      exact hcode.nodup
    obtain ⟨b, hb, -, -⟩ := (hfresh.bound.bindAll hnodup).1 code hlower
    obtain ⟨code', hbinds⟩ := bindAll_ok hb
    obtain rfl : code = code' := Except.ok.inj (hlower.symm.trans hbinds.lower)
    rw [decode_eq_finish hheader hfault hb, hbinds.finish.1 hcode.closed]
    exact hr

/-- **A sound routine**: its body is normal and scoped, and its program is the body's layout. -/
structure Sound (r : Routine) : Prop where
  normal : r.body.Normal
  inScope : ∀ s ∈ r.body.stmts, s.Scoped r.body.locals
  ops : r.program.ops.toList = Program.codeOf 0 r.body.stmts
  starts : r.program.starts.toList = Program.startsOf 0 r.body.stmts

/-- **Code makes a routine**, and it is sound. -/
theorem HasCode.ofBody (h : HasCode m address ramStart convention groups code) :
    ∃ r, Routine.ofBody convention address (bodyOf groups code) = .ok r ∧
      r.convention = convention ∧ r.address = address ∧ r.body = bodyOf groups code ∧ r.Sound := by
  have hnormal : (bodyOf groups code).Normal := Body.normal_normalize h.wellLabelled _
  obtain ⟨r, hr, hc, ha, hb, hops, hstarts⟩ := ofBody_normal hnormal convention address
  refine ⟨r, hr, hc, ha, hb, ?_, ?_, hb ▸ hops, hb ▸ hstarts⟩
  · rwa [hb]
  · rw [hb]
    intro s hs
    rcases Body.mem_normalize h.wellLabelled hs with rfl | ⟨t, ht, rfl⟩
    · trivial
    · exact Stmt.scoped_relabel (h.proper.scoped_of_mem (Body.mem_prune.mp ht).1)

/-- **Routines read from memory are sound.** -/
theorem decode_sound {r : Routine} (h : decode m address ramStart = .ok r) : r.Sound := by
  obtain ⟨convention, groups, code, hcode, hr⟩ := decode_ok_iff.mp h
  obtain ⟨r', hr', -, -, -, hsound⟩ := hcode.ofBody
  rw [hr] at hr'
  cases hr'
  exact hsound

end Routine

end StoryVM
