import StoryVM.Proofs.Format
import StoryVM.Proofs.InPlace
import StoryVM.Proofs.Storage

/-! # Writing instructions

Opcode numbers and operands put down as bytes, and that reading undoes it
(`Cursor.reading_undoes_writing`).

* `Opcode.numberBytes`: an opcode number in one of its three forms. It is read back whatever stands
  behind it (`Cursor.opcodeNumber_of_numberBytes`).
* `Cursor.InPlace.opcodeNumber`: reads an opcode number in place. It moves the cursor only if there
  is an answer (`Cursor.InPlace.runFrom_opcodeNumber`).
* `WrittenOperand`: an operand as it is written. Its value is a number that its mode can hold: with
  a sign for constants and without one for all other kinds. Its data give that operand
  (`WrittenOperand.readAs_ofData`).
* `modeBytes`: the modes of operands, two to a byte, with anything in the half that is left over;
  they are read back one by one (`take_nibbles_modeBytes`).
* `Cursor.instr_of_allBytes`: the operands of an instruction are those written, split by role. -/

namespace StoryVM

/-! ## Numbers of a width -/

namespace Width

theorem toNat_truncate (w : Width) (u : UInt32) :
    (w.truncate u).toNat = u.toNat % 256 ^ w.bytes := by
  cases w with
  | byte =>
    rw [truncate, UInt32.toNat_and]
    exact Nat.and_two_pow_sub_one_eq_mod _ 8
  | word =>
    rw [truncate, UInt32.toNat_and]
    exact Nat.and_two_pow_sub_one_eq_mod _ 16
  | dword => exact (Nat.mod_eq_of_lt u.toNat_lt).symm

/-- **Sign extension** reads the low bytes as two's complement. -/
theorem toInt_signExtend (w : Width) (u : UInt32) :
    (w.signExtend u).toInt32.toInt = (u.toNat : Int).bmod (256 ^ w.bytes) := by
  cases w with
  | byte =>
    rw [signExtend, Int32.toInt32_toUInt32, Int8.toInt_toInt32, ← Int8.toInt_toBitVec,
      UInt8.toBitVec_toInt8, BitVec.toInt_eq_toNat_bmod]
    simpa [bytes] using Int.emod_bmod (u.toNat : Int) 256
  | word =>
    rw [signExtend, Int32.toInt32_toUInt32, Int16.toInt_toInt32, ← Int16.toInt_toBitVec,
      UInt16.toBitVec_toInt16, BitVec.toInt_eq_toNat_bmod]
    simpa [bytes] using Int.emod_bmod (u.toNat : Int) 65536
  | dword =>
    rw [signExtend, ← Int32.toInt_toBitVec, UInt32.toBitVec_toInt32, BitVec.toInt_eq_toNat_bmod]
    simp [bytes]

end Width

theorem Bytes.decode_digits (w : Width) {n : Nat} (h : n < 2 ^ 32) :
    decode (digits w.bytes n) = w.truncate (UInt32.ofNat n) := by
  rw [← decode_encode, encode_eq_digits, UInt32.toNat_ofNat_of_lt' h]

/-! ## Opcode numbers -/

namespace Opcode

/-- The numbers below this one can be written in the form of a width. -/
def numberLimit : Width → UInt32
  | .byte => 0x80
  | .word => 0x4000
  | .dword => 0x10000000

/-- The top bits of the form of a width: `0`, `10` and `11`. -/
def numberTag : Width → UInt32
  | .byte => 0
  | .word => 0x8000
  | .dword => 0xC0000000

/-- **An opcode number in the form of a width**: its bytes, with the form in the top bits. -/
def numberBytes (w : Width) (number : UInt32) : List UInt8 := Bytes.encode w (numberTag w + number)

/-- Without its top bits a form is the number. -/
theorem number_of_masked {w : Width} {number : UInt32} (hn : number < numberLimit w) :
    w.truncate (numberTag w + number) &&& (numberLimit w - 1) = number := by
  have hlt : number.toNat < (numberLimit w).toNat := UInt32.lt_iff_toNat_lt.mp hn
  have hmask : ∀ bits, (numberLimit w - 1).toNat = 2 ^ bits - 1 →
      (numberTag w + number).toNat % 256 ^ w.bytes % 2 ^ bits = number.toNat →
      w.truncate (numberTag w + number) &&& (numberLimit w - 1) = number := by
    intro bits hbits hnumber
    apply UInt32.toNat_inj.mp
    rw [UInt32.toNat_and, hbits, Nat.and_two_pow_sub_one_eq_mod, Width.toNat_truncate, hnumber]
  cases w with
  | byte =>
    refine hmask 7 rfl ?_
    simp [Width.bytes, numberTag, numberLimit] at hlt ⊢
    omega
  | word =>
    refine hmask 14 rfl ?_
    simp [Width.bytes, numberTag, numberLimit] at hlt ⊢
    omega
  | dword =>
    refine hmask 28 rfl ?_
    simp [Width.bytes, numberTag, numberLimit] at hlt ⊢
    omega

end Opcode

namespace Cursor

open Opcode (numberLimit numberTag numberBytes)

variable {c : Cursor}

theorem next_of_rest {w : Width} {bs tail : List UInt8} (h : c.rest = bs ++ tail)
    (hbs : bs.length = w.bytes) : c.next w = .ok (Bytes.decode bs, c.advance w.bytes) :=
  map_ok_iff.mpr ⟨_, read_ok_iff.mpr ⟨bs, tail, h, hbs, rfl⟩, rfl⟩

/-- **Reading an opcode number** that is written at the cursor, in whichever form. -/
theorem opcodeNumber_of_numberBytes {w : Width} {number : UInt32} (hn : number < numberLimit w)
    {tail : List UInt8} (h : c.rest = numberBytes w number ++ tail) :
    c.opcodeNumber = .ok (number, c.advance w.bytes) := by
  have hlt : number.toNat < (numberLimit w).toNat := UInt32.lt_iff_toNat_lt.mp hn
  have hnext : c.next w = .ok (w.truncate (numberTag w + number), c.advance w.bytes) := by
    rw [next_of_rest h (Bytes.length_encode w _), numberBytes, Bytes.decode_encode]
  have hmask : (Except.ok (w.truncate (numberTag w + number) &&& (numberLimit w - 1),
      c.advance w.bytes) : Except Fault (UInt32 × Cursor)) = .ok (number, c.advance w.bytes) := by
    rw [Opcode.number_of_masked hn]
  -- The top bits of the first byte tell the form, and reading it leaves them out.
  unfold opcodeNumber
  cases w with
  | byte =>
    have hpeek : c.peek = .ok (0 + number).toUInt8 := peek_ok_iff.mpr ⟨_, h⟩
    have hfirst : (0 + number).toUInt8.toNat < 0x80 := by
      simp [numberLimit] at hlt ⊢
      omega
    have hone : ¬ 0x80 ≤ (0 + number).toUInt8 := UInt8.not_le.mpr hfirst
    have hfour : ¬ 0xC0 ≤ (0 + number).toUInt8 := fun h' => hone (UInt8.le_trans (by decide) h')
    rw [hpeek, bind_ok_iff]
    refine ⟨_, rfl, ?_⟩
    rw [if_neg hfour, if_neg hone, bind_ok_iff]
    exact ⟨_, hnext, hmask⟩
  | word =>
    have hpeek : c.peek = .ok ((0x8000 + number) / 0x100).toUInt8 := peek_ok_iff.mpr ⟨_, h⟩
    have hfirst : 0x80 ≤ ((0x8000 + number) / 0x100).toUInt8.toNat ∧
        ((0x8000 + number) / 0x100).toUInt8.toNat < 0xC0 := by
      simp [numberLimit] at hlt ⊢
      omega
    have hfour : ¬ 0xC0 ≤ ((0x8000 + number) / 0x100).toUInt8 := UInt8.not_le.mpr hfirst.2
    have htwo : 0x80 ≤ ((0x8000 + number) / 0x100).toUInt8 := hfirst.1
    rw [hpeek, bind_ok_iff]
    refine ⟨_, rfl, ?_⟩
    rw [if_neg hfour, if_pos htwo, bind_ok_iff]
    exact ⟨_, hnext, hmask⟩
  | dword =>
    have hpeek : c.peek = .ok ((0xC0000000 + number) / 0x1000000).toUInt8 :=
      peek_ok_iff.mpr ⟨_, h⟩
    have hfirst : 0xC0 ≤ ((0xC0000000 + number) / 0x1000000).toUInt8.toNat := by
      simp [numberLimit] at hlt ⊢
      omega
    have hfour : 0xC0 ≤ ((0xC0000000 + number) / 0x1000000).toUInt8 := hfirst
    rw [hpeek, bind_ok_iff]
    refine ⟨_, rfl, ?_⟩
    rw [if_pos hfour, bind_ok_iff]
    exact ⟨_, hnext, hmask⟩

/-! ## Reading in place -/

namespace InPlace

open StoryVM.InPlace (look runFrom_bind runFrom_look)

variable {α : Type}

/-- Reads a value, then moves past it. -/
def next (w : Width) : InPlace Cursor UInt32 := do
  let v ← look fun c => c.memory.read w c.address
  modify (·.advance w.bytes)
  return v

/-- Reads an opcode number. -/
def opcodeNumber : InPlace Cursor UInt32 := do
  let first ← look peek
  if 0xC0 ≤ first then return (← next .dword) &&& 0x0FFFFFFF
  else if 0x80 ≤ first then return (← next .word) &&& 0x3FFF
  else return (← next .byte) &&& 0x7F

/-- The answer of a reader and the cursor after it: the old one if it fails. -/
def settled (c : Cursor) : Except Fault (α × Cursor) → Except Fault α × Cursor
  | .ok (a, c') => (.ok a, c')
  | .error f => (.error f, c)

theorem runFrom_next (w : Width) (c : Cursor) : (next w).runFrom c = settled c (c.next w) := by
  rw [next, runFrom_bind, runFrom_look, Cursor.next]
  cases c.memory.read w c.address <;> rfl

/-- **Reading an opcode number in place** moves the cursor only if there is an answer. Of what can
fail, nothing comes after a move. -/
theorem runFrom_opcodeNumber (c : Cursor) : opcodeNumber.runFrom c = settled c c.opcodeNumber := by
  have hread : ∀ w mask, (do return (← next w) &&& mask : InPlace Cursor UInt32).runFrom c =
      settled c (c.next w >>= fun p => .ok (p.1 &&& mask, p.2)) := by
    intro w mask
    rw [runFrom_bind, runFrom_next]
    rcases c.next w with f | ⟨v, c'⟩ <;> rfl
  rw [opcodeNumber, runFrom_bind, runFrom_look, Cursor.opcodeNumber]
  rcases c.peek with f | first
  · rfl
  · change StoryVM.InPlace.runFrom (if 0xC0 ≤ first then _ else _) c =
      settled c (if 0xC0 ≤ first then _ else _)
    by_cases hfour : 0xC0 ≤ first
    · rw [if_pos hfour, if_pos hfour]
      exact hread _ _
    · rw [if_neg hfour, if_neg hfour]
      by_cases htwo : 0x80 ≤ first
      · rw [if_pos htwo, if_pos htwo]
        exact hread _ _
      · rw [if_neg htwo, if_neg htwo]
        exact hread _ _

end InPlace

end Cursor

/-! ## Operands -/

/-- The numbers that the mode can hold: those of its data field, with a sign for constants. Without
a data field there is only zero. -/
def Mode.Holds (m : Mode) (value : Int) : Prop :=
  match m.field with
  | none => value = 0
  | some w =>
    if m.kind = .constant then
      -(2 ^ (8 * w.bytes - 1)) ≤ value ∧ value < 2 ^ (8 * w.bytes - 1)
    else 0 ≤ value ∧ value < 2 ^ (8 * w.bytes)

/-- The number that the operand gives: with a sign for constants, without one for all other
kinds. -/
def Operand.number (o : Operand) : Int :=
  if o.kind = .constant then o.value.toInt32.toInt else o.value.toNat

/-- **An operand as it is written**: the number of a mode, and a value that the mode can hold. -/
structure WrittenOperand where
  nibble : UInt8
  mode : Mode
  value : Int
  mode_eq : Mode.ofNibble? nibble = some mode
  fits : mode.Holds value

namespace WrittenOperand

/-- The data field: the low bytes of the value, negative ones as their two's complement. -/
def data (o : WrittenOperand) : List UInt8 :=
  o.mode.field.elim [] fun w => Bytes.digits w.bytes (o.value % 2 ^ 32).toNat

/-- What is written is what is read: the kind of the mode and the value. -/
structure ReadAs (o : WrittenOperand) (read : Operand) : Prop where
  kind : read.kind = o.mode.kind
  number : read.number = o.value

theorem length_data (o : WrittenOperand) : o.data.length = o.mode.dataBytes := by
  unfold data Mode.dataBytes
  cases o.mode.field with
  | none => rfl
  | some w => exact Bytes.length_digits _ _

theorem data_of_field (o : WrittenOperand) {w : Width} (h : o.mode.field = some w) :
    o.data = Bytes.digits w.bytes (o.value % 2 ^ 32).toNat := by
  rw [data, h, Option.elim_some]

/-- **The operand of the data** is the one written. -/
theorem readAs_ofData (o : WrittenOperand) : o.ReadAs (o.mode.ofData o.data) := by
  have hfits := o.fits
  rw [Mode.Holds] at hfits
  cases hfield : o.mode.field with
  | none =>
    rw [hfield] at hfits
    have hread : o.mode.ofData o.data = ⟨o.mode.kind, 0⟩ := by rw [Mode.ofData, hfield]
    rw [hread]
    refine ⟨rfl, ?_⟩
    rw [hfits, Operand.number]
    exact ite_self 0
  | some w =>
    rw [hfield] at hfits
    have hlow : (o.value % 2 ^ 32).toNat < 2 ^ 32 := by omega
    have hread : o.mode.ofData o.data = ⟨o.mode.kind, w.convert (decide (o.mode.kind = .constant))
        (w.truncate (UInt32.ofNat (o.value % 2 ^ 32).toNat))⟩ := by
      rw [Mode.ofData, hfield, o.data_of_field hfield]
      exact congrArg (Mode.operand o.mode w) (Bytes.decode_digits w hlow)
    have hnat : (UInt32.ofNat (o.value % 2 ^ 32).toNat).toNat = (o.value % 2 ^ 32).toNat :=
      UInt32.toNat_ofNat_of_lt' hlow
    rw [hread]
    refine ⟨rfl, ?_⟩
    rw [Operand.number]
    dsimp only at hfits ⊢
    by_cases hk : o.mode.kind = .constant
    · rw [if_pos hk] at hfits ⊢
      rw [decide_eq_true hk, Width.convert, if_pos rfl, Width.toInt_signExtend,
        Width.toNat_truncate, hnat, Int.bmod_def]
      cases w with simp only [Width.bytes] at hfits ⊢
      | byte => push_cast; split_ifs <;> omega
      | word => push_cast; split_ifs <;> omega
      | dword => push_cast; split_ifs <;> omega
    · rw [if_neg hk] at hfits ⊢
      rw [decide_eq_false hk, Width.convert, if_neg Bool.false_ne_true, Width.toNat_truncate,
        Width.toNat_truncate, hnat]
      cases w with simp only [Width.bytes] at hfits ⊢
      | byte => omega
      | word => omega
      | dword => omega

end WrittenOperand

/-! ## Mode bytes -/

/-- **Modes put down as bytes**, two to a byte and the low one first. An odd one at the end shares
its byte with anything. -/
def modeBytes (spare : UInt8) : List UInt8 → List UInt8
  | [] => []
  | [n] => [n + 16 * spare]
  | n₁ :: n₂ :: rest => (n₁ + 16 * n₂) :: modeBytes spare rest

theorem Mode.lt_of_ofNibble? {nibble : UInt8} {mode : Mode} (h : ofNibble? nibble = some mode) :
    nibble < 16 := by
  unfold ofNibble? at h
  split at h
  all_goals first | decide | exact absurd h nofun

theorem length_modeBytes (spare : UInt8) (ns : List UInt8) :
    (modeBytes spare ns).length = (ns.length + 1) / 2 := by
  induction ns using List.twoStepInduction with
  | nil => rfl
  | singleton n => simp [modeBytes]
  | cons_cons n₁ n₂ rest ih _ =>
    simp only [modeBytes, List.length_cons, ih]
    omega

theorem low_of_packed {low : UInt8} (high : UInt8) (h : low < 16) :
    (low + 16 * high) &&& 0x0F = low := by
  have hlow : low.toNat < 16 := h
  apply UInt8.toNat_inj.mp
  rw [UInt8.toNat_and]
  refine (Nat.and_two_pow_sub_one_eq_mod _ 4).trans ?_
  simp only [UInt8.toNat_add, UInt8.toNat_mul, UInt8.reduceToNat]
  omega

theorem high_of_packed {low high : UInt8} (h : low < 16) (h' : high < 16) :
    (low + 16 * high) >>> 4 = high := by
  have hlow : low.toNat < 16 := h
  have hhigh : high.toNat < 16 := h'
  apply UInt8.toNat_inj.mp
  rw [UInt8.toNat_shiftRight, Nat.shiftRight_eq_div_pow]
  simp only [UInt8.toNat_add, UInt8.toNat_mul, UInt8.reduceToNat, Nat.reduceMod]
  omega

/-- **The modes in mode bytes** are those put down. -/
theorem take_nibbles_modeBytes (spare : UInt8) {ns : List UInt8} (h : ∀ n ∈ ns, n < 16) :
    (nibbles (modeBytes spare ns)).take ns.length = ns := by
  induction ns using List.twoStepInduction with
  | nil => rfl
  | singleton n =>
    have hn : n < 16 := h n (List.mem_singleton_self n)
    change [(n + 16 * spare) &&& 0x0F] = [n]
    rw [low_of_packed spare hn]
  | cons_cons n₁ n₂ rest ih _ =>
    simp only [List.forall_mem_cons] at h
    obtain ⟨h₁, h₂, hrest⟩ := h
    rw [List.length_cons, List.length_cons, modeBytes, Cursor.nibbles_cons_take,
      low_of_packed n₂ h₁, high_of_packed h₁ h₂, ih hrest]

/-! ## Instructions -/

/-- Those of the items, one for each of the roles, that stand at a role. -/
def Role.pick {α : Type} (r : Role) : List Role → List α → List α
  | r' :: roles, x :: xs => if r' = r then x :: r.pick roles xs else r.pick roles xs
  | _, _ => []

theorem Role.pick_zip (r : Role) (roles : List Role) (os : List Operand) :
    ((roles.zip os).filter (·.1 = r)).map (·.2) = r.pick roles os := by
  induction roles generalizing os with
  | nil => rfl
  | cons r' roles ih =>
    cases os with
    | nil => rfl
    | cons o os =>
      rw [List.zip_cons_cons, List.filter_cons, pick, ← ih]
      by_cases hr : r' = r
      · simp [hr]
      · simp [hr]

theorem Role.forall₂_pick {α β : Type} {R : α → β → Prop} (r : Role) {xs : List α} {ys : List β}
    (h : List.Forall₂ R xs ys) (roles : List Role) :
    List.Forall₂ R (r.pick roles xs) (r.pick roles ys) := by
  induction h generalizing roles with
  | nil => cases roles <;> exact .nil
  | cons hxy _ ih =>
    cases roles with
    | nil => exact .nil
    | cons r' roles =>
      rw [pick, pick]
      by_cases hr : r' = r
      · rw [if_pos hr, if_pos hr]
        exact .cons hxy (ih roles)
      · rw [if_neg hr, if_neg hr]
        exact ih roles

namespace WrittenOperand

/-- **The bytes of operands**: their modes, then their data. -/
def allBytes (spare : UInt8) (os : List WrittenOperand) : List UInt8 :=
  modeBytes spare (os.map (·.nibble)) ++ os.flatMap data

theorem operandBytes (os : List WrittenOperand) :
    OperandBytes (os.map (·.nibble)) (os.flatMap data) (os.map fun o => o.mode.ofData o.data) := by
  induction os with
  | nil => exact .nil
  | cons o os ih => exact .cons o.mode_eq o.length_data ih

theorem forall₂_readAs (os : List WrittenOperand) :
    List.Forall₂ ReadAs os (os.map fun o => o.mode.ofData o.data) := by
  induction os with
  | nil => exact .nil
  | cons o os ih => exact .cons o.readAs_ofData ih

end WrittenOperand

/-- **The instruction of written operands**, at a cursor behind the opcode number: all operands
come back, split by their roles, and the cursor stands behind the last byte of data. -/
theorem Cursor.instr_of_allBytes {c : Cursor} (hm : c.memory.size ≤ 0x80000000) {opcode : Opcode}
    {os : List WrittenOperand} (hos : os.length = opcode.roles.length) {spare : UInt8}
    {tail : List UInt8} (h : c.rest = WrittenOperand.allBytes spare os ++ tail)
    (routine address : UInt32) :
    ∃ i c', c.instr routine address opcode = .ok (i, c') ∧
      c.Moves (WrittenOperand.allBytes spare os) c' ∧ c'.rest = tail ∧ i.opcode = opcode ∧
      List.Forall₂ WrittenOperand.ReadAs (Role.load.pick opcode.roles os) i.loads ∧
      List.Forall₂ WrittenOperand.ReadAs (Role.store.pick opcode.roles os) i.stores := by
  obtain ⟨c', hmoves, htail⟩ := exists_moves hm h
  have hlength : (os.map (·.nibble)).length = opcode.roles.length := by rw [List.length_map, hos]
  have hnibbles : (nibbles (modeBytes spare (os.map (·.nibble)))).take opcode.roles.length =
      os.map (·.nibble) := by
    rw [← hlength]
    refine take_nibbles_modeBytes spare ?_
    rw [List.forall_mem_map]
    exact fun o _ => Mode.lt_of_ofNibble? o.mode_eq
  have hdata := WrittenOperand.operandBytes os
  rw [← hnibbles] at hdata
  have hread := WrittenOperand.forall₂_readAs os
  refine ⟨_, c', (instr_ok_iff hm).mpr ⟨_, _, _, hmoves, ?_, hdata, rfl⟩, hmoves, htail, rfl,
    ?_, ?_⟩
  · rw [length_modeBytes, hlength]
  · change List.Forall₂ _ _ (opcode.pick _ .load)
    rw [Opcode.pick, Role.pick_zip]
    exact Role.load.forall₂_pick hread opcode.roles
  · change List.Forall₂ _ _ (opcode.pick _ .store)
    rw [Opcode.pick, Role.pick_zip]
    exact Role.store.forall₂_pick hread opcode.roles

/-- **Reading undoes writing.** An opcode number that is written in one of its forms, whatever
stands behind it, is the one that is read, and the cursor moves past the form; a reader that fails
leaves its cursor where it was. Behind the number of any opcode, operands that are written in modes
that can hold them, in a memory of at most `2 ^ 31` bytes, are the operands that are read: the loads
and the stores in their order, each with its kind and its number. The cursor then stands behind the
last byte of data. -/
theorem Cursor.reading_undoes_writing (c : Cursor) :
    (∀ w number tail, number < Opcode.numberLimit w → c.rest = Opcode.numberBytes w number ++ tail →
      c.opcodeNumber = .ok (number, c.advance w.bytes) ∧
      InPlace.opcodeNumber.runFrom c = (.ok number, c.advance w.bytes)) ∧
    (∀ f c', InPlace.opcodeNumber.runFrom c = (.error f, c') → c' = c) ∧
    ∀ (opcode : Opcode) os spare tail, os.length = opcode.roles.length →
      c.memory.size ≤ 0x80000000 → c.rest = WrittenOperand.allBytes spare os ++ tail →
      ∀ routine address, ∃ i c', c.instr routine address opcode = .ok (i, c') ∧
        c.Moves (WrittenOperand.allBytes spare os) c' ∧ c'.rest = tail ∧ i.opcode = opcode ∧
        List.Forall₂ WrittenOperand.ReadAs (Role.load.pick opcode.roles os) i.loads ∧
        List.Forall₂ WrittenOperand.ReadAs (Role.store.pick opcode.roles os) i.stores := by
  refine ⟨?_, ?_, ?_⟩
  · intro w number tail hn h
    have hread := opcodeNumber_of_numberBytes hn h
    refine ⟨hread, ?_⟩
    rw [InPlace.runFrom_opcodeNumber, hread]
    rfl
  · intro f c' h
    rw [InPlace.runFrom_opcodeNumber] at h
    rcases hread : c.opcodeNumber with f' | ⟨number, c₁⟩
    · rw [hread] at h
      exact (congrArg Prod.snd h).symm
    · rw [hread] at h
      exact absurd (congrArg Prod.fst h) nofun
  · intro opcode os spare tail hos hm h routine address
    exact instr_of_allBytes hm hos h routine address

/-- An addition of `-2` and a local, whose sum goes to the stack. The number has two bytes. -/
def addition : Memory := { bytes := #[0x80, 0x10, 0xA1, 0x78, 0xFE, 0x01, 0x23] }

/-- The operands of the addition. -/
def addition.operands : List WrittenOperand :=
  [⟨0x1, ⟨.constant, some .byte⟩, -2, rfl, by simp [Mode.Holds, Width.bytes]⟩,
    ⟨0xA, ⟨.localSlot, some .word⟩, 0x123, rfl, by simp [Mode.Holds, Width.bytes]⟩,
    ⟨0x8, ⟨.stack, none⟩, 0, rfl, rfl⟩]

theorem Cursor.reading_undoes_writing_addition :
    Cursor.opcodeNumber ⟨addition, 0⟩ = .ok (0x10, ⟨addition, 2⟩) ∧
    (∃ f c, InPlace.opcodeNumber.runFrom ⟨addition, 7⟩ = (.error f, c) ∧ c = ⟨addition, 7⟩) ∧
    ∃ i c o₁ o₂ o₃,
      Cursor.instr ⟨addition, 2⟩ 0 0 ⟨0x10, "add", [.load, .load, .store], some (.arith .add)⟩ =
        .ok (i, c) ∧ c.address = 7 ∧ i.loads = [o₁, o₂] ∧ i.stores = [o₃] ∧
        o₁.number = -2 ∧ o₂.number = 0x123 ∧ o₃.kind = .stack := by
  obtain ⟨hnumber, -, -⟩ := reading_undoes_writing ⟨addition, 0⟩
  obtain ⟨-, hfail, -⟩ := reading_undoes_writing ⟨addition, 7⟩
  obtain ⟨-, -, hinstr⟩ := reading_undoes_writing ⟨addition, 2⟩
  refine ⟨(hnumber .word 0x10 [0xA1, 0x78, 0xFE, 0x01, 0x23] (by decide) rfl).1,
    ⟨_, _, rfl, hfail _ _ rfl⟩, ?_⟩
  obtain ⟨⟨opcode, loads, stores, address, next⟩, c, hi, hmoves, -, -, hloads, hstores⟩ :=
    hinstr ⟨0x10, "add", [.load, .load, .store], some (.arith .add)⟩ addition.operands 0x7 [] rfl
      (by decide) (by decide) 0 0
  have haddress : c.address = 7 := by rw [hmoves.eq_advance]; decide
  change List.Forall₂ _ [_, _] loads at hloads
  change List.Forall₂ _ [_] stores at hstores
  obtain _ | ⟨h₁, _ | ⟨h₂, _ | _⟩⟩ := hloads
  obtain _ | ⟨h₃, _ | _⟩ := hstores
  exact ⟨_, _, _, _, _, hi, haddress, rfl, rfl, h₁.number, h₂.number, h₃.kind⟩

end StoryVM
