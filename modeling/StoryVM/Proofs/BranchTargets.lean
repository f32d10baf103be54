import Mathlib.Order.Bounds.Basic
import StoryVM.Proofs.DecodeOutcomes

/-! # Branch targets

Where the branches of a routine lead is told by its instructions alone: the offset is the last operand,
and a constant offset other than 0 and 1 leads to an address (`Instr.branchTarget?`). Instructions may
lead to addresses before and behind them, and past the end of the address space to its start.

* What an instruction stands for leads where the instruction does (`Scope.lower_target`).
* The binder tells whether all these addresses are those of instructions. If not, it finds the least
  that is not (`Binder.Bound.stray?_isLeast`).
* So a routine whose instructions were all read and bound is refused if and only if a branch leads
  elsewhere than to an instruction, and the least such target is reported
  (`Routine.decode_checks_targets`). -/

namespace StoryVM

/-! ## Where instructions lead -/

/-- The opcodes that branch: a jump, and jumps under a condition on signed numbers. -/
def Opcode.isBranch (o : Opcode) : Bool := o.number = 0x20 || (0x22 ≤ o.number && o.number ≤ 0x29)

theorem Opcode.isBranch_eq {o : Opcode} (h : o ∈ table) : o.isBranch = o.action.any Action.leaps := by
  have hall : ∀ o ∈ table, o.isBranch = o.action.any Action.leaps := by decide +kernel
  exact hall o h

/-- The address that an offset leads to: a constant other than 0 and 1 leads that far past the next
instruction, less 2. -/
def Operand.leapTarget? (offset : Operand) (next : UInt32) : Option UInt32 :=
  if offset.kind = .constant ∧ offset.value ≠ 0 ∧ offset.value ≠ 1 then
    some (next + offset.value - 2)
  else none

/-- **Where a branch instruction leads.** Its offset is the last operand. -/
def Instr.branchTarget? (i : Instr) : Option UInt32 :=
  if i.opcode.isBranch then i.loads.getLast?.bind (·.leapTarget? i.next) else none

theorem Instr.branchTarget?_eq {i : Instr} (hi : i.opcode ∈ Opcode.table) :
    i.branchTarget? = if i.opcode.action.any Action.leaps then
      i.loads.getLast?.bind (·.leapTarget? i.next) else none := by
  rw [branchTarget?, Opcode.isBranch_eq hi]

theorem Operand.destination_target (o : Operand) (next : UInt32) :
    Yields (o.destination next) fun d => d.toEffect.target? = o.leapTarget? next := by
  unfold destination leapTarget?
  split
  · next hkind =>
    split
    · next hret =>
      rw [if_neg fun h => hret.elim h.2.1 h.2.2]
      exact .ok rfl
    · next hleap =>
      rw [if_pos ⟨hkind, not_or.mp hleap⟩]
      exact .ok rfl
  · exact .error _

theorem Destination.target?_toBranch (d : Destination) (cond : Expr) :
    (d.toBranch cond).target? = d.toEffect.target? := by
  cases d with
  | ret v => rfl
  | address a => rfl

namespace Scope

/-- **What an instruction stands for leads where the instruction does.** -/
theorem lower_target (s : Scope) {i : Instr} (hi : i.opcode ∈ Opcode.table) :
    Yields (s.lower i) (·.target? = i.branchTarget?) := by
  rw [Instr.branchTarget?_eq hi]
  intro e he
  cases s.lower_lowered i e he with
  | nothing ha =>
    rw [ha]
    rfl
  | stays _ ha =>
    rw [ha]
    rfl
  | @jumps offset d ha hl hd =>
    rw [ha, hl]
    exact offset.destination_target i.next d hd
  | @branches cond offset d ha _ hl hd =>
    rw [if_pos ha, hl, Destination.target?_toBranch]
    exact offset.destination_target i.next d hd

/-- **The targets of code** are those of the instructions that it stands for. -/
theorem targets_of_lowerAll {s : Scope} {instrs : List Instr} {code : Code}
    (h : s.lowerAll instrs = .ok code) (hi : ∀ i ∈ instrs, i.opcode ∈ Opcode.table) :
    code.targets = instrs.filterMap Instr.branchTarget? := by
  induction lowerAll_ok_iff.mp h with
  | nil => rfl
  | @cons i p instrs code hp hrest ih =>
    have htarget : p.2.target? = i.branchTarget? := s.lower_target (hi i (by simp)) p.2 hp.2
    have hmore := ih (lowerAll_ok_iff.mpr hrest) fun j hj => hi j (by simp [hj])
    rw [Code.targets] at hmore ⊢
    rw [List.filterMap_cons, List.filterMap_cons, htarget, hmore]

end Scope

theorem Cursor.HasInstr.opcode_mem {c c' : Cursor} {routine : UInt32} {i : Instr}
    (h : c.HasInstr routine i c') : i.opcode ∈ Opcode.table := by
  obtain ⟨number, modes, opcode, -, hopcode, hi⟩ := h
  obtain ⟨p, -, hi⟩ := bind_ok_iff.mp hi
  cases hi
  exact List.mem_of_find?_eq_some hopcode

theorem Cursor.InstrRun.opcode_mem {c : Cursor} {routine : UInt32} {l : Listing}
    (h : InstrRun routine c l) : ∀ i ∈ l.instrs, i.opcode ∈ Opcode.table := by
  induction h with
  | out => simp
  | unknown => simp
  | cut => simp
  | more hi hl ih => exact List.forall_mem_cons.mpr ⟨hi.opcode_mem, ih⟩

/-! ## Targets that are no instructions -/

namespace Binder

variable {b : Binder} {code : Code}

/-- **The stray target is the least** of those that are no instructions. -/
theorem Bound.stray?_isLeast (h : b.Bound code) {t : UInt32} (ht : b.stray? = some t) :
    IsLeast {a | a ∈ code.targets ∧ a ∉ code.addresses} t := by
  obtain ⟨⟨a, l⟩, hfind, rfl⟩ := Option.map_eq_some_iff.mp ht
  obtain ⟨hl, before, after, hsplit, hbefore⟩ := List.find?_eq_some_iff_append.mp hfind
  have hmem {x : UInt32} {k : Label} : (x, k) ∈ b.labels.toList ↔ b.labels[x]? = some k :=
    Std.TreeMap.mem_toList_iff_getElem?_eq_some
  refine ⟨h.unmarked_iff.mp ⟨l, hmem.mp (by simp [hsplit]), by simpa using hl⟩, ?_⟩
  rintro x hx
  obtain ⟨k, hk, hunmarked⟩ := h.unmarked_iff.mpr hx
  -- The table is ordered by addresses, and those before the one found have a place.
  have hordered := b.labels.ordered_keys_toList
  have hpair := hmem.mpr hk
  rw [hsplit] at hordered hpair
  rcases List.mem_append.mp hpair with hin | hin
  · have hmarked := hbefore _ hin
    simp [hunmarked] at hmarked
  · rcases List.mem_cons.mp hin with heq | hafter
    · cases heq
      exact UInt32.le_refl _
    · have hlt := (List.pairwise_cons.mp (List.pairwise_append.mp hordered).2.1).1 _ hafter
      exact UInt32.le_of_lt (Std.LawfulLTCmp.eq_lt_iff_lt.mp hlt)

end Binder

/-! ## Routines -/

/-- The addresses that the branches among instructions lead to. -/
def branchTargets (instrs : List Instr) : Set UInt32 := {t | ∃ i ∈ instrs, i.branchTarget? = some t}

/-- The addresses of instructions. -/
def instrStarts (instrs : List Instr) : Set UInt32 := {a | ∃ i ∈ instrs, i.address = a}

namespace Routine

variable {m : Memory} {address ramStart : UInt32} {convention : Convention}
  {groups : List LocalGroup} {c : Cursor} {b : Binder} {code : Code} {instrs : List Instr}

/-- **What the binder of a routine finds**: the least branch target that is no instruction. -/
theorem Binds.stray?_iff (h : Binds address ramStart groups instrs b code)
    (hi : ∀ i ∈ instrs, i.opcode ∈ Opcode.table) :
    (b.stray? = none ↔ branchTargets instrs ⊆ instrStarts instrs) ∧
      ∀ t, b.stray? = some t ↔ IsLeast (branchTargets instrs \ instrStarts instrs) t := by
  have hset : {a | a ∈ code.targets ∧ a ∉ code.addresses} =
      branchTargets instrs \ instrStarts instrs := by
    ext a
    rw [Set.mem_ofPred_eq, Scope.targets_of_lowerAll h.lower hi, Scope.addresses_of_lowerAll h.lower,
      List.mem_filterMap, List.mem_map]
    rfl
  have hnone : b.stray? = none ↔ branchTargets instrs ⊆ instrStarts instrs := by
    rw [h.bound.stray?_eq_none_iff, ← Set.sdiff_eq_empty, ← hset, Set.eq_empty_iff_forall_notMem]
    simp [Code.Closed]
  have hleast : ∀ t, b.stray? = some t → IsLeast (branchTargets instrs \ instrStarts instrs) t :=
    fun t ht => hset ▸ h.bound.stray?_isLeast ht
  refine ⟨hnone, fun t => ⟨hleast t, fun ht => ?_⟩⟩
  cases hstray : b.stray? with
  | none => exact absurd (hnone.mp hstray ht.1.1) ht.1.2
  | some t' =>
    have ht' := hleast t' hstray
    rw [UInt32.le_antisymm (ht'.2 ht.1) (ht.2 ht'.1)]

/-- Reading a routine whose instructions were all read and bound fails if a jump goes astray. -/
theorem decode_error_iff (hheader : header m address = .ok (convention, groups, c))
    (hscan : Listing.scan address c = ⟨instrs, none⟩)
    (hb : (binder address ramStart groups).bindAll instrs = .ok b) {f : Fault} :
    decode m address ramStart = .error f ↔
      ∃ t, f = .decode address (.invalidBranchTarget t) ∧ b.stray? = some t := by
  obtain ⟨code, hbinds⟩ := bindAll_ok hb
  rw [decode_eq_finish hheader (by rw [hscan]) (by rwa [hscan])]
  cases hstray : b.stray? with
  | some t =>
    have hfinish : b.finish = .error (.decode address (.invalidBranchTarget t)) := by
      rw [Binder.finish, hstray, hbinds.routine]
    rw [hfinish]
    constructor
    · rintro ⟨⟩
      exact ⟨t, rfl, rfl⟩
    · rintro ⟨_, rfl, ⟨⟩⟩
      rfl
  | none =>
    have hfinish := hbinds.finish.1 (hbinds.bound.stray?_eq_none_iff.mp hstray)
    obtain ⟨r, hr, -⟩ := ofBody_normal (hbinds.finish_normal hfinish) convention address
    rw [hfinish]
    refine ⟨fun hf => ?_, ?_⟩
    · cases hr.symm.trans hf
    · rintro ⟨_, -, ⟨⟩⟩

/-- **Branch targets are checked exactly.** Let the header and the whole stream of a routine be read,
and its instructions bound, without a fault. Then the routine is refused if and only if a branch leads
to an address that has no instruction, and the least such address is reported. -/
theorem decode_checks_targets (hm : m.size ≤ 0x80000000)
    (hheader : header m address = .ok (convention, groups, c))
    (hscan : Listing.scan address c = ⟨instrs, none⟩)
    (hb : (binder address ramStart groups).bindAll instrs = .ok b) :
    ((∃ f, decode m address ramStart = .error f) ↔ ¬ branchTargets instrs ⊆ instrStarts instrs) ∧
      ∀ f, decode m address ramStart = .error f ↔
        ∃ t, f = .decode address (.invalidBranchTarget t) ∧
          IsLeast (branchTargets instrs \ instrStarts instrs) t := by
  obtain ⟨bs, hmoves, -⟩ := (header_ok_iff hm).mp hheader
  have hrun : Cursor.InstrRun address c ⟨instrs, none⟩ :=
    (Cursor.instrRun_iff (hmoves.memory ▸ hm)).mpr hscan.symm
  obtain ⟨code, hbinds⟩ := bindAll_ok hb
  obtain ⟨hnone, hsome⟩ := hbinds.stray?_iff hrun.opcode_mem
  simp only [decode_error_iff hheader hscan hb, hsome]
  refine ⟨⟨?_, fun hout => ?_⟩, fun f => trivial⟩
  · rintro ⟨f, t, -, ht⟩ hin
    exact ht.1.2 (hin ht.1.1)
  · obtain ⟨t, ht⟩ := Option.ne_none_iff_exists'.mp (mt hnone.mp hout)
    exact ⟨_, t, rfl, (hsome t).mp ht⟩

/-- Three jumps and a return. The first jump leads to the third; the second leads far back past address
0, and the third into the middle of the return. -/
def scattering : Memory where
  bytes := #[0xC0, 0, 0, 0x20, 0x01, 5, 0x20, 0x01, 0xEC, 0x20, 0x01, 3, 0x31, 0x01, 7]

theorem decode_checks_targets_scattering :
    scattering.size ≤ 0x80000000 ∧ header scattering 0 = .ok (.stackArguments, [], ⟨scattering, 3⟩) ∧
      ∃ instrs b, Listing.scan 0 ⟨scattering, 3⟩ = ⟨instrs, none⟩ ∧
        (binder 0 0 []).bindAll instrs = .ok b ∧
        decode scattering 0 0 = .error (.decode 0 (.invalidBranchTarget 13)) ∧
        IsLeast (branchTargets instrs \ instrStarts instrs) 13 := by
  have hm : scattering.size ≤ 0x80000000 := by decide
  have hheader : header scattering 0 = .ok (.stackArguments, [], ⟨scattering, 3⟩) := by decide +kernel
  have hfault : (Listing.scan 0 ⟨scattering, 3⟩).fault = none := by decide +kernel
  have hbinds : ((binder 0 0 []).bindAll (Listing.scan 0 ⟨scattering, 3⟩).instrs).isOk = true := by
    decide +kernel
  have herror : decode scattering 0 0 = .error (.decode 0 (.invalidBranchTarget 13)) := by
    decide +kernel
  obtain ⟨instrs, hscan⟩ : ∃ instrs, Listing.scan 0 ⟨scattering, 3⟩ = ⟨instrs, none⟩ :=
    ⟨_, congrArg (Listing.mk _) hfault⟩
  rw [hscan] at hbinds
  cases hb : (binder 0 0 []).bindAll instrs with
  | error f =>
    rw [hb] at hbinds
    cases hbinds
  | ok b =>
    obtain ⟨t, ht, hleast⟩ := ((decode_checks_targets hm hheader hscan hb).2 _).mp herror
    cases ht
    exact ⟨hm, hheader, instrs, b, hscan, hb, herror, hleast⟩

end Routine

end StoryVM
