import StoryVM.Memory.StringObject
import StoryVM.Proofs.Format
import StoryVM.Stack

/-! # Faults of guest programs

Most faults are the doing of a guest program or of its host: an access outside memory, a stack that
is empty or full, bytes that are no routine. The others say that the machine broke a guarantee of its
own, or that it was built in a wrong way (`Fault.isInternal`). Memory, the value stack and all
readers fail with faults of the first sort only (`Benign`).

Reading a routine fails in two ways only: outside memory, or with a cause that is reported for the
address of the routine (`Fault.OfReading`, `Routine.decode_fails`). -/

namespace StoryVM

/-- Whether a fault says that the machine broke a guarantee of its own, or was built in a wrong
way. -/
def Fault.isInternal : Fault → Bool
  | malformedImage _ | memoryShrinks _ _ | unmarkedLabel _ | labelAlreadyMarked _ | foreignLabel _
  | defect _ | localOutOfRange _ _ | invalidLimits _ => true
  | _ => false

/-- The computation fails with faults of a sort only. -/
def FailsOnly {α : Type} (P : Fault → Prop) (x : Except Fault α) : Prop := ∀ f, x = .error f → P f

namespace FailsOnly

variable {α β : Type} {P : Fault → Prop}

theorem ok (a : α) : FailsOnly P (.ok a) := by
  rintro _ ⟨⟩

theorem error {f : Fault} (h : P f) : FailsOnly P (.error f : Except Fault α) := by
  rintro _ ⟨⟩
  exact h

theorem bind {x : Except Fault α} {f : α → Except Fault β} (hx : FailsOnly P x)
    (hf : ∀ a, x = .ok a → FailsOnly P (f a)) : FailsOnly P (x >>= f) := by
  cases x with
  | error e => exact error (hx e rfl)
  | ok a => exact hf a rfl

theorem map {x : Except Fault α} (hx : FailsOnly P x) (f : α → β) : FailsOnly P (x.map f) := by
  cases x with
  | error e => exact error (hx e rfl)
  | ok a => exact ok (f a)

end FailsOnly

/-- The computation fails with no internal fault. -/
def Benign {α : Type} (x : Except Fault α) : Prop := ∀ f, x = .error f → f.isInternal = false

namespace Benign

variable {α β : Type}

theorem ok (a : α) : Benign (.ok a) := FailsOnly.ok a

theorem error {f : Fault} (h : f.isInternal = false) : Benign (.error f : Except Fault α) :=
  FailsOnly.error h

theorem bind {x : Except Fault α} {f : α → Except Fault β} (hx : Benign x)
    (hf : ∀ a, x = .ok a → Benign (f a)) : Benign (x >>= f) := FailsOnly.bind hx hf

theorem map {x : Except Fault α} (hx : Benign x) (f : α → β) : Benign (x.map f) :=
  FailsOnly.map hx f

end Benign

/-! ## Memory and the value stack -/

theorem Memory.read_benign (m : Memory) (w : Width) (address : UInt32) :
    Benign (m.read w address) := by
  unfold Memory.read
  split
  · exact .ok _
  · exact .error rfl

theorem Memory.write_benign (m : Memory) (w : Width) (address value : UInt32) :
    Benign (m.write w address value) := by
  unfold Memory.write
  split
  · split
    · exact .error rfl
    · exact .ok _
  · exact .error rfl

namespace Stack

theorem pushBytes_benign (s : Stack) (new : List UInt8) : Benign (s.pushBytes new) := by
  unfold pushBytes
  split
  · exact .ok _
  · exact .error rfl

theorem pop_benign (s : Stack) (w : Width) : Benign (s.pop w) := by
  unfold pop
  split
  · exact .ok _
  · exact .error rfl

theorem copyDwords_benign (s : Stack) (count : UInt32) : Benign (s.copyDwords count) := by
  unfold copyDwords
  dsimp only
  split
  · exact s.pushBytes_benign _
  · exact .error rfl

theorem popDwords_benign (s : Stack) (n : Nat) : Benign (s.popDwords n) := by
  induction n generalizing s with
  | zero => exact .ok _
  | succ n ih =>
    unfold popDwords
    refine .bind (s.pop_benign .dword) fun p _ => ?_
    exact .bind (ih p.2) fun _ _ => .ok _

theorem popArguments_benign (s : Stack) (count : UInt32) : Benign (s.popArguments count) := by
  unfold popArguments
  split
  · exact s.popDwords_benign _
  · exact .error rfl

theorem pushDwords_benign (s : Stack) (vs : List UInt32) : Benign (s.pushDwords vs).1 := by
  induction vs generalizing s with
  | nil => exact .ok _
  | cons v rest ih =>
    unfold pushDwords
    split
    · next s' hs => exact ih s'
    · next f hf => exact .error (s.pushBytes_benign _ f hf)

end Stack

/-! ## Strings -/

namespace Cursor

theorem next_benign (c : Cursor) (w : Width) : Benign (c.next w) :=
  (c.memory.read_benign w c.address).map _

theorem codePoints_benign (w : Width) (fuel : Nat) (c : Cursor) :
    Benign (c.codePoints w fuel) := by
  induction fuel generalizing c with
  | zero => exact .error rfl
  | succ fuel ih =>
    rw [codePoints]
    refine .bind (c.next_benign w) fun p _ => ?_
    dsimp only
    split
    · exact .ok _
    · exact .bind (ih p.2) fun _ _ => .ok _

end Cursor

theorem Memory.readString_benign (m : Memory) (address : UInt32) :
    Benign (m.readString address) := by
  refine Benign.map ?_ _
  unfold Memory.stringCodes
  refine .bind ((Cursor.next_benign _ _).map _) fun p _ => ?_
  dsimp only
  split
  · exact Cursor.codePoints_benign _ _ _
  · refine .bind (Cursor.next_benign _ _) fun p₁ _ => ?_
    refine .bind (Cursor.next_benign _ _) fun p₂ _ => ?_
    refine .bind (Cursor.next_benign _ _) fun p₃ _ => ?_
    exact Cursor.codePoints_benign _ _ _
  · exact .error rfl

/-! ## Routines -/

/-- **The faults of reading a routine**: an access outside memory, or a cause that is reported for
the routine's address. -/
inductive Fault.OfReading (routine : UInt32) : Fault → Prop
  | outOfRange (address : UInt32) (size length : Nat) :
    OfReading routine (.outOfRange address size length)
  | decode (cause : DecodeFault) : OfReading routine (.decode routine cause)

theorem Fault.OfReading.not_internal {routine : UInt32} {f : Fault} (h : f.OfReading routine) :
    f.isInternal = false := by
  cases h with
  | outOfRange => rfl
  | decode => rfl

namespace Cursor

variable (routine : UInt32)

theorem next_fails (c : Cursor) (w : Width) : FailsOnly (·.OfReading routine) (c.next w) := by
  refine .map ?_ _
  unfold Memory.read
  split
  · exact .ok _
  · exact .error (.outOfRange _ _ _)

theorem nextByte_fails (c : Cursor) : FailsOnly (·.OfReading routine) c.nextByte :=
  (c.next_fails routine .byte).map _

theorem operandOfNibble_fails (c : Cursor) (nibble : UInt8) :
    FailsOnly (·.OfReading routine) (c.operandOfNibble routine nibble) := by
  unfold operandOfNibble
  split
  · unfold operand
    split
    · exact .ok _
    · next w _ => exact .bind (c.next_fails routine w) fun _ _ => .ok _
  · exact .error (.decode _)

theorem operands_fails (modes data : Cursor) (roles : List Role) :
    FailsOnly (·.OfReading routine) (operands routine modes data roles) := by
  induction roles using List.twoStepInduction generalizing modes data with
  | nil => exact .ok _
  | singleton r =>
    rw [operands]
    refine .bind (modes.nextByte_fails routine) fun p _ => ?_
    exact .bind (data.operandOfNibble_fails routine _) fun _ _ => .ok _
  | cons_cons r₁ r₂ roles ih _ =>
    rw [operands]
    refine .bind (modes.nextByte_fails routine) fun p _ => ?_
    refine .bind (data.operandOfNibble_fails routine _) fun o₁ _ => ?_
    refine .bind (o₁.2.operandOfNibble_fails routine _) fun o₂ _ => ?_
    exact .bind (ih p.2 o₂.2) fun _ _ => .ok _

theorem instr_fails (c : Cursor) (address : UInt32) (opcode : Opcode) :
    FailsOnly (·.OfReading routine) (c.instr routine address opcode) :=
  .bind (operands_fails routine c _ opcode.roles) fun _ _ => .ok _

theorem localGroups_fails (fuel : Nat) (c : Cursor) :
    FailsOnly (·.OfReading routine) (c.localGroups routine fuel) := by
  induction fuel generalizing c with
  | zero => exact .error (.outOfRange _ _ _)
  | succ fuel ih =>
    rw [localGroups]
    refine .bind (c.nextByte_fails routine) fun size _ => ?_
    refine .bind (size.2.nextByte_fails routine) fun count _ => ?_
    dsimp only
    split
    · exact .ok _
    · split
      · exact .error (.decode _)
      · exact .bind (ih count.2) fun _ _ => .ok _

end Cursor

theorem Listing.scanFrom_fault {routine : UInt32} {fuel : Nat} {c : Cursor} {seen : List Instr}
    {f : Fault} (h : (scanFrom routine fuel c seen).fault = some f) : f.OfReading routine := by
  induction fuel generalizing c seen with
  | zero => cases h
  | succ fuel ih =>
    rw [scanFrom] at h
    split at h
    · cases h
    · split at h
      · cases h
      · split at h
        · next fault hf =>
          cases h
          exact Cursor.instr_fails routine _ _ _ _ hf
        · exact ih h

namespace Routine

theorem header_fails (m : Memory) (address : UInt32) :
    FailsOnly (·.OfReading address) (header m address) := by
  refine .bind (Cursor.nextByte_fails address _) fun b _ => ?_
  refine .bind ?_ fun convention _ => ?_
  · cases Convention.ofTypeByte b.1 with
    | ok convention => exact .ok _
    | error cause => exact .error (.decode cause)
  · exact .bind (Cursor.localGroups_fails address _ _) fun _ _ => .ok _

variable {address ramStart : UInt32} {groups : List LocalGroup} {instrs : List Instr} {b : Binder}
  {code : Code}

theorem Binds.finish_fails (h : Binds address ramStart groups instrs b code) :
    FailsOnly (fun f => ∃ t, f = .decode address (.invalidBranchTarget t)) b.finish := by
  intro f hf
  obtain ⟨hfinish, hstray⟩ := h.finish
  by_cases hclosed : code.Closed
  · rw [hfinish hclosed] at hf
    cases hf
  · obtain ⟨t, ht⟩ := hstray hclosed
    rw [ht] at hf
    exact ⟨t, (Except.error.inj hf).symm⟩

/-- A body that is finished is in normal form, so it can be laid out. -/
theorem Binds.finish_normal (h : Binds address ramStart groups instrs b code) {body : Body}
    (hbody : b.finish = .ok body) : body.Normal := by
  obtain ⟨hfinish, hstray⟩ := h.finish
  by_cases hclosed : code.Closed
  · obtain rfl := Except.ok.inj ((hfinish hclosed).symm.trans hbody)
    have haddresses := h.bound.nodup.map fun _ _ => UInt32.toNat_inj.mp
    exact Body.normal_normalize (h.proper.wellLabelled hclosed haddresses) _
  · obtain ⟨t, ht⟩ := hstray hclosed
    rw [ht] at hbody
    cases hbody

/-- **How reading a routine fails.** No address has two instructions, so no label is placed twice;
jumps that go astray are reported as such; and a body that is finished can be laid out. -/
theorem decode_fails {m : Memory} (hm : m.size ≤ 0x80000000) (address ramStart : UInt32) :
    FailsOnly (·.OfReading address) (decode m address ramStart) := by
  unfold decode
  refine .bind (header_fails m address) ?_
  rintro ⟨convention, groups, c⟩ hheader
  obtain ⟨bs, hmoves, -⟩ := (header_ok_iff hm).mp hheader
  have hc : c.memory.size ≤ 0x80000000 := hmoves.memory ▸ hm
  refine .bind ?_ fun b hb => ?_
  · intro f hf
    obtain ⟨cause, rfl⟩ := bindAll_error (Listing.scan_nodup hc address) hf
    exact .decode cause
  · obtain ⟨code, hbinds⟩ := bindAll_ok hb
    dsimp only
    cases hfault : (Listing.scan address c).fault with
    | some f => exact .error (Listing.scanFrom_fault hfault)
    | none =>
      refine .bind ?_ fun body hbody => ?_
      · intro f hf
        obtain ⟨t, rfl⟩ := hbinds.finish_fails f hf
        exact .decode _
      · obtain ⟨r, hr, -⟩ := ofBody_normal (hbinds.finish_normal hbody) convention address
        rw [hr]
        exact .ok r

theorem decode_benign {m : Memory} (hm : m.size ≤ 0x80000000) (address ramStart : UInt32) :
    Benign (decode m address ramStart) :=
  fun f hf => (decode_fails hm address ramStart f hf).not_internal

end Routine

end StoryVM
