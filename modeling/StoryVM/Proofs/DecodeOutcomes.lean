import StoryVM.Proofs.Faults

/-! # What comes of reading a routine

Reading a routine from arbitrary bytes ends, and either succeeds or fails in one of two ways.

* The loops over groups of locals and over instructions are run here without a bound, turn by turn
  (`Cursor.GroupRun`, `Cursor.InstrRun`). A turn that goes on has moved past bytes, so from every
  cursor there is such a run, and what it comes to is what the bounded readers give
  (`groupRun_iff`, `instrRun_iff`).
* The stages of reading fail with faults of their own: binding with a cause for the routine's address,
  finishing with a jump that goes astray, and what is finished has a graph and a program
  (`decode_ends`). -/

namespace StoryVM

namespace Cursor

variable {c c' : Cursor} {routine : UInt32}

/-- A turn that moved past bytes leaves fewer of them. -/
theorem Moves.length_rest_lt {bs : List UInt8} (h : c.Moves bs c') (hpos : 0 < bs.length) :
    c'.rest.length < c.rest.length := by
  rw [h.rest, List.length_append]
  omega

/-! ## Groups of locals -/

/-- The size and the number at the cursor, and the cursor after both. -/
def nextPair (c : Cursor) : Except Fault (UInt8 × UInt8 × Cursor) := do
  let (size, rest) ← c.nextByte
  let (count, rest) ← rest.nextByte
  return (size, count, rest)

theorem moves_of_nextPair (hm : c.memory.size ≤ 0x80000000) {size count : UInt8}
    (h : c.nextPair = .ok (size, count, c')) : c.Moves [size, count] c' := by
  obtain ⟨⟨size', c₁⟩, hsize, h⟩ := bind_ok_iff.mp h
  obtain ⟨⟨count', c₂⟩, hcount, h⟩ := bind_ok_iff.mp h
  cases h
  have hfirst := (nextByte_ok_iff hm).mp hsize
  have hm₁ : c₁.memory.size ≤ 0x80000000 := hfirst.memory ▸ hm
  exact hfirst.trans ((nextByte_ok_iff hm₁).mp hcount)

/-- **A run of the loop over groups** that ends. -/
inductive GroupRun (routine : UInt32) : Cursor → Except Fault (List LocalGroup × Cursor) → Prop
  | cut {c : Cursor} {f : Fault} (h : c.nextPair = .error f) : GroupRun routine c (.error f)
  | done {c c' : Cursor} (h : c.nextPair = .ok (0, 0, c')) : GroupRun routine c (.ok ([], c'))
  | invalid {c c' : Cursor} {size count : UInt8} (h : c.nextPair = .ok (size, count, c'))
    (hzero : ¬ (size = 0 ∧ count = 0)) (hw : Width.ofBytes? size = none) :
    GroupRun routine c (.error (.decode routine (.invalidLocalSize size)))
  | more {c c' : Cursor} {size count : UInt8} {w : Width}
    {x : Except Fault (List LocalGroup × Cursor)} (h : c.nextPair = .ok (size, count, c'))
    (hw : Width.ofBytes? size = some w) (hx : GroupRun routine c' x) :
    GroupRun routine c (x.map fun p => (⟨w, count.toNat⟩ :: p.1, p.2))

/-- One turn of the bounded loop. -/
theorem localGroups_succ (routine : UInt32) (fuel : Nat) (c : Cursor) :
    c.localGroups routine (fuel + 1) = c.nextPair >>= fun p =>
      if p.1 = 0 ∧ p.2.1 = 0 then .ok ([], p.2.2)
      else match Width.ofBytes? p.1 with
        | none => .error (.decode routine (.invalidLocalSize p.1))
        | some w => (p.2.2.localGroups routine fuel).map fun q =>
            (⟨w, p.2.1.toNat⟩ :: q.1, q.2) := by
  rw [localGroups, nextPair]
  cases c.nextByte with
  | error f => rfl
  | ok p =>
    dsimp only [Bind.bind, Except.bind]
    cases p.2.nextByte with
    | error f => rfl
    | ok q => rfl

theorem exists_groupRun (hm : c.memory.size ≤ 0x80000000) (routine : UInt32) :
    ∃ x, GroupRun routine c x := by
  -- By induction on the number of bytes that are left.
  induction hn : c.rest.length using Nat.strongRecOn generalizing c with
  | ind n ih =>
    cases hpair : c.nextPair with
    | error f => exact ⟨_, .cut hpair⟩
    | ok p =>
      obtain ⟨size, count, c'⟩ := p
      by_cases hzero : size = 0 ∧ count = 0
      · obtain ⟨rfl, rfl⟩ := hzero
        exact ⟨_, .done hpair⟩
      · cases hw : Width.ofBytes? size with
        | none => exact ⟨_, .invalid hpair hzero hw⟩
        | some w =>
          have hmoves := moves_of_nextPair hm hpair
          have hlt : c'.rest.length < n := hn ▸ hmoves.length_rest_lt Nat.two_pos
          obtain ⟨x, hx⟩ := ih _ hlt (hmoves.memory ▸ hm) rfl
          exact ⟨_, .more hpair hw hx⟩

/-- A run comes to what the bounded loop gives, if the bound exceeds the number of bytes that are
left. -/
theorem GroupRun.localGroups_eq {x : Except Fault (List LocalGroup × Cursor)}
    (h : GroupRun routine c x) (hm : c.memory.size ≤ 0x80000000) {fuel : Nat}
    (hfuel : c.rest.length ≤ fuel) : c.localGroups routine (fuel + 1) = x := by
  induction h generalizing fuel with
  | cut h =>
    rw [localGroups_succ, h]
    rfl
  | done h =>
    rw [localGroups_succ, h]
    rfl
  | invalid h hzero hw =>
    simp only [localGroups_succ, h, Bind.bind, Except.bind, if_neg hzero, hw]
  | @more c c' size count w x h hw hx ih =>
    have hmoves := moves_of_nextPair hm h
    have hlt := hmoves.length_rest_lt Nat.two_pos
    have hzero : ¬ (size = 0 ∧ count = 0) := by
      rintro ⟨rfl, -⟩
      cases hw
    obtain ⟨fuel, rfl⟩ := Nat.exists_eq_succ_of_ne_zero (n := fuel) (by omega)
    simp only [localGroups_succ routine (fuel + 1), h, Bind.bind, Except.bind, if_neg hzero, hw]
    rw [ih (hmoves.memory ▸ hm) (by omega)]

theorem groupRun_iff (hm : c.memory.size ≤ 0x80000000)
    {x : Except Fault (List LocalGroup × Cursor)} :
    GroupRun routine c x ↔ x = c.localGroups routine (c.memory.size + 1) := by
  have hrest : c.rest.length ≤ c.memory.size := by
    rw [length_rest]
    omega
  refine ⟨fun h => (h.localGroups_eq hm hrest).symm, ?_⟩
  rintro rfl
  obtain ⟨x, hx⟩ := exists_groupRun hm routine
  rwa [hx.localGroups_eq hm hrest]

/-! ## Instructions -/

/-- **A run of the loop over instructions** that ends. -/
inductive InstrRun (routine : UInt32) : Cursor → Listing → Prop
  | out {c : Cursor} {f : Fault} (h : c.opcodeNumber = .error f) : InstrRun routine c ⟨[], none⟩
  | unknown {c modes : Cursor} {number : UInt32} (hn : c.opcodeNumber = .ok (number, modes))
    (ho : Opcode.ofNumber? number = none) : InstrRun routine c ⟨[], none⟩
  | cut {c modes : Cursor} {number : UInt32} {opcode : Opcode} {f : Fault}
    (hn : c.opcodeNumber = .ok (number, modes)) (ho : Opcode.ofNumber? number = some opcode)
    (h : modes.instr routine c.address opcode = .error f) : InstrRun routine c ⟨[], some f⟩
  | more {c c' : Cursor} {i : Instr} {l : Listing} (h : c.HasInstr routine i c')
    (hl : InstrRun routine c' l) : InstrRun routine c ⟨i :: l.instrs, l.fault⟩

theorem exists_instrRun (hm : c.memory.size ≤ 0x80000000) (routine : UInt32) :
    ∃ l, InstrRun routine c l := by
  -- By induction on the number of bytes that are left.
  induction hn : c.rest.length using Nat.strongRecOn generalizing c with
  | ind n ih =>
    cases hnumber : c.opcodeNumber with
    | error f => exact ⟨_, .out hnumber⟩
    | ok p =>
      cases hopcode : Opcode.ofNumber? p.1 with
      | none => exact ⟨_, .unknown hnumber hopcode⟩
      | some opcode =>
        cases hinstr : p.2.instr routine c.address opcode with
        | error f => exact ⟨_, .cut hnumber hopcode hinstr⟩
        | ok q =>
          have hi : c.HasInstr routine q.1 q.2 := ⟨p.1, p.2, opcode, hnumber, hopcode, hinstr⟩
          obtain ⟨bs, hmoves, -, -, hpos⟩ := (hasInstr_iff hm).mp hi
          have hlt : q.2.rest.length < n := hn ▸ hmoves.length_rest_lt hpos
          obtain ⟨l, hl⟩ := ih _ hlt (hmoves.memory ▸ hm) rfl
          exact ⟨_, .more hi hl⟩

/-- An opcode number takes a byte. -/
theorem length_rest_pos (hm : c.memory.size ≤ 0x80000000) {number : UInt32}
    (h : c.opcodeNumber = .ok (number, c')) : 0 < c.rest.length := by
  obtain ⟨bs, hmoves, hspells⟩ := (opcodeNumber_ok_iff hm).mp h
  exact Nat.zero_lt_of_lt (hmoves.length_rest_lt (Spells.length_pos hspells))

/-- A run comes to what the bounded scan gives, if the bound reaches the number of bytes that are
left. -/
theorem InstrRun.scanFrom_eq {l : Listing} (h : InstrRun routine c l)
    (hm : c.memory.size ≤ 0x80000000) {fuel : Nat} (hfuel : c.rest.length ≤ fuel)
    (seen : List Instr) :
    Listing.scanFrom routine fuel c seen = ⟨seen.reverse ++ l.instrs, l.fault⟩ := by
  induction h generalizing fuel seen with
  | out h => cases fuel <;> simp [Listing.scanFrom, h]
  | unknown hn ho => cases fuel <;> simp [Listing.scanFrom, hn, ho]
  | cut hn ho h =>
    have hpos := length_rest_pos hm hn
    obtain ⟨fuel, rfl⟩ := Nat.exists_eq_succ_of_ne_zero (n := fuel) (by omega)
    simp [Listing.scanFrom, hn, ho, h]
  | @more c c' i l h hl ih =>
    obtain ⟨bs, hmoves, -, -, hlength⟩ := (hasInstr_iff hm).mp h
    have hlt := hmoves.length_rest_lt hlength
    obtain ⟨fuel, rfl⟩ := Nat.exists_eq_succ_of_ne_zero (n := fuel) (by omega)
    obtain ⟨number, modes, opcode, hn, ho, hi⟩ := h
    have hfuel' : c'.rest.length ≤ fuel := by omega
    have hrest := ih (hmoves.memory ▸ hm) hfuel' (i :: seen)
    simpa [Listing.scanFrom, hn, ho, hi] using hrest

theorem instrRun_iff (hm : c.memory.size ≤ 0x80000000) {l : Listing} :
    InstrRun routine c l ↔ l = Listing.scan routine c := by
  have hrest : c.rest.length ≤ c.memory.size := by
    rw [length_rest]
    omega
  refine ⟨fun h => (h.scanFrom_eq hm hrest []).symm, ?_⟩
  rintro rfl
  obtain ⟨l, hl⟩ := exists_instrRun hm routine
  rw [Listing.scan, hl.scanFrom_eq hm hrest]
  exact hl

end Cursor

/-! ## Routines -/

namespace Routine

open Cursor

/-- **Reading a routine ends, and fails in two ways only**, in a memory of at most `2 ^ 31` bytes.
Both loops over bytes end after finitely many turns, with what the readers give. A routine is read, or
an access leaves memory, or a cause is reported for the routine's own address. The instructions stand
at increasing addresses, so no label is placed twice; no label is left without a place but those of
jumps that go astray; and a body that is finished has a graph and a program. -/
theorem decode_ends {m : Memory} (hm : m.size ≤ 0x80000000) (address ramStart : UInt32) :
    (∀ c : Cursor, c.memory = m →
      (∀ x, GroupRun address c x ↔ x = c.localGroups address (m.size + 1)) ∧
        ∀ l, InstrRun address c l ↔ l = Listing.scan address c) ∧
      ((∃ r, decode m address ramStart = .ok r) ∨
        (∃ a size length, decode m address ramStart = .error (.outOfRange a size length)) ∨
          ∃ cause, decode m address ramStart = .error (.decode address cause)) ∧
      ∀ convention groups c, header m address = .ok (convention, groups, c) →
        ((Listing.scan address c).instrs.map (·.address)).Pairwise (· < ·) ∧
          (∀ f, (binder address ramStart groups).bindAll (Listing.scan address c).instrs = .error f →
            ∃ cause, f = .decode address cause) ∧
          ∀ b, (binder address ramStart groups).bindAll (Listing.scan address c).instrs = .ok b →
            (∀ f, b.finish = .error f → ∃ t, f = .decode address (.invalidBranchTarget t)) ∧
              ∀ body, b.finish = .ok body →
                ∃ g p, Graph.ofBody body = .ok g ∧ Program.ofBody body g = .ok p := by
  refine ⟨?_, ?_, fun convention groups c hheader => ?_⟩
  · rintro c rfl
    exact ⟨fun x => groupRun_iff hm, fun l => instrRun_iff hm⟩
  · cases hdecode : decode m address ramStart with
    | ok r => exact Or.inl ⟨r, rfl⟩
    | error f =>
      cases decode_fails hm address ramStart f hdecode with
      | outOfRange a size length => exact Or.inr (Or.inl ⟨a, size, length, rfl⟩)
      | decode cause => exact Or.inr (Or.inr ⟨cause, rfl⟩)
  · obtain ⟨bs, hmoves, -⟩ := (header_ok_iff hm).mp hheader
    have hc : c.memory.size ≤ 0x80000000 := hmoves.memory ▸ hm
    have hnodup := Listing.scan_nodup hc address
    refine ⟨Listing.scan_increasing hc address, fun f => bindAll_error hnodup, fun b hb => ?_⟩
    obtain ⟨code, hbinds⟩ := bindAll_ok hb
    refine ⟨hbinds.finish_fails, fun body hbody => ?_⟩
    obtain ⟨g, p, hg, hp, -⟩ := Program.ofBody_normal (hbinds.finish_normal hbody)
    exact ⟨g, p, hg, hp⟩

/-- A routine with one local and a jump back into its header. -/
def wandering : Memory := { bytes := #[0xC1, 4, 1, 0, 0, 0x20, 0x01, 0xFE] }

theorem decode_ends_wandering :
    wandering.size ≤ 0x80000000 ∧
      GroupRun 0 ⟨wandering, 1⟩ (.ok ([⟨.dword, 1⟩], ⟨wandering, 5⟩)) ∧
      (∃ l, InstrRun 0 ⟨wandering, 5⟩ l ∧ l.instrs.map (·.address) = [5]) ∧
      ∃ cause, decode wandering 0 0 = .error (.decode 0 cause) := by
  have hm : wandering.size ≤ 0x80000000 := by decide
  obtain ⟨hloops, houtcome, -⟩ := decode_ends hm 0 0
  refine ⟨hm, (hloops ⟨wandering, 1⟩ rfl).1 _ |>.mpr (by decide +kernel), ?_, ?_⟩
  · refine ⟨_, (hloops ⟨wandering, 5⟩ rfl).2 _ |>.mpr rfl, ?_⟩
    decide +kernel
  · have hdecode : decode wandering 0 0 = .error (.decode 0 (.invalidBranchTarget 4)) := by
      decide +kernel
    rcases houtcome with ⟨r, hr⟩ | ⟨a, size, length, hr⟩ | hcause
    · cases hdecode.symm.trans hr
    · cases hdecode.symm.trans hr
    · exact hcause

end Routine

end StoryVM
