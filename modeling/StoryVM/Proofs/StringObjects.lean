import Mathlib.Data.List.Forall2
import Mathlib.Data.Nat.Digits.Lemmas
import StoryVM.Memory.StringObject
import StoryVM.Proofs.DecodeOutcomes
import StoryVM.Proofs.Storage

/-! # String objects

The text of a string object is told by the bytes from its address on: after the type byte, and after
three more bytes for one of the types, numbers of one width stand in a row, and the text ends at the
first of them that is zero.

* `Text.Shows`: the character that a number stands for.
* `Bytes.numbers`: the numbers of a width that stand in a row. A number that is cut off by the end of
  memory is none of them.
* `Cursor.CodeRun`, `Memory.StringRun`: the reader without a bound on its turns. It ends from every
  address, and comes to what the bounded reader gives.
* `Memory.readString_exact`: which string objects can be read, and what their text is. -/

namespace StoryVM

/-! ## Characters -/

/-- **The character that a number shows as**: the one with this code point, or the replacement
character if there is none. -/
inductive Text.Shows : Nat → Char → Prop
  | char (c : Char) : Shows c.toNat c
  | replaced {n : Nat} (h : ∀ c : Char, c.toNat ≠ n) : Shows n '\uFFFD'

namespace Text

theorem shows_scalar (n : UInt32) : Shows n.toNat (scalar n) := by
  by_cases hn : n.toNat.isValidChar
  · have hchar : (Char.ofNat n.toNat).toNat = n.toNat := by
      rw [Char.ofNat, dif_pos hn]
      exact rfl
    have hshows := Shows.char (Char.ofNat n.toNat)
    rwa [hchar, ← show scalar n = Char.ofNat n.toNat from if_pos hn] at hshows
  · have hnone : ∀ c : Char, c.toNat ≠ n.toNat := fun c hc => hn (hc ▸ c.valid)
    rw [show scalar n = '\uFFFD' from if_neg hn]
    exact .replaced hnone

theorem Shows.unique {n : Nat} {c d : Char} (h : Shows n c) (h' : Shows n d) : c = d := by
  cases h with
  | char =>
    generalize hn : c.toNat = n at h'
    cases h' with
    | char => exact Char.toNat_inj.mp hn
    | replaced hnone => exact absurd hn (hnone c)
  | replaced hnone =>
    cases h' with
    | char => exact absurd rfl (hnone d)
    | replaced => rfl

/-- A text is told by the numbers of its characters. -/
theorem eq_of_shows {codes : List Nat} {s t : List Char} (h : List.Forall₂ Shows codes s)
    (h' : List.Forall₂ Shows codes t) : s = t := by
  induction h generalizing t with
  | nil =>
    cases h'
    rfl
  | cons hc _ ih =>
    obtain _ | ⟨hd, ht⟩ := h'
    rw [hc.unique hd, ih ht]

theorem shows_chars (text : List Char) : List.Forall₂ Shows (text.map Char.toNat) text := by
  rw [List.forall₂_map_left_iff]
  exact List.forall₂_same.mpr fun c _ => .char c

end Text

/-! ## Numbers in a row -/

namespace Bytes

/-- **The numbers of a width that stand in a row** in a list of bytes. The bytes behind the last whole
one are left over. -/
def numbers (w : Width) (bs : List UInt8) : List Nat :=
  (List.range (bs.length / w.bytes)).map fun k => number ((bs.drop (k * w.bytes)).take w.bytes)

variable {w : Width} {bs tail : List UInt8}

theorem numbers_of_lt (h : bs.length < w.bytes) : numbers w bs = [] := by
  rw [numbers, Nat.div_eq_of_lt h]
  rfl

/-- A number in front is the first of the row. -/
theorem numbers_append (h : bs.length = w.bytes) :
    numbers w (bs ++ tail) = number bs :: numbers w tail := by
  have hcount : (bs ++ tail).length / w.bytes = tail.length / w.bytes + 1 := by
    rw [List.length_append, h, Nat.add_comm, Nat.add_div_right _ w.bytes_pos]
  have hfirst : ((bs ++ tail).drop (0 * w.bytes)).take w.bytes = bs := by
    rw [Nat.zero_mul, List.drop_zero, ← h, List.take_left]
  have hnext : ∀ k, (bs ++ tail).drop ((k + 1) * w.bytes) = tail.drop (k * w.bytes) := by
    intro k
    rw [Nat.succ_mul, Nat.add_comm, ← h, ← List.drop_drop, List.drop_left]
  simp only [numbers, hcount, List.range_succ_eq_map, List.map_cons, List.map_map, hfirst]
  refine congrArg _ (List.map_congr_left fun k _ => ?_)
  rw [Function.comp_apply, Nat.succ_eq_add_one, hnext]

theorem number_singleton (b : UInt8) : number [b] = b.toNat := by
  simp [number]

/-- The numbers of one byte are the bytes. -/
theorem numbers_byte (bs : List UInt8) : numbers .byte bs = bs.map UInt8.toNat := by
  induction bs with
  | nil => rfl
  | cons b bs ih =>
    rw [← List.singleton_append, numbers_append rfl, number_singleton, ih]
    rfl

theorem number_lt (bs : List UInt8) : number bs < 256 ^ bs.length := by
  have hdigits : ∀ d ∈ bs.reverse.map UInt8.toNat, d < 256 := by
    intro d hd
    obtain ⟨b, -, rfl⟩ := List.mem_map.mp hd
    exact b.toNat_lt
  have hlt := Nat.ofDigits_lt_base_pow_length (b := 256) (by decide) hdigits
  rwa [List.length_map, List.length_reverse] at hlt

/-- Numbers of up to four bytes fit in 32 bits. -/
theorem number_lt_of_length (h : bs.length = w.bytes) : number bs < 0x100000000 := by
  have hlt := number_lt bs
  have hpow : 256 ^ bs.length ≤ 256 ^ 4 := Nat.pow_le_pow_right (by decide) (h ▸ w.bytes_le_four)
  omega

theorem ofNat_number_eq_zero (h : bs.length = w.bytes) :
    UInt32.ofNat (number bs) = 0 ↔ number bs = 0 := by
  rw [← UInt32.toNat_inj, UInt32.toNat_ofNat_of_lt' (number_lt_of_length h), UInt32.toNat_zero]

theorem lt_of_mem_numbers {n : Nat} (h : n ∈ numbers w bs) : n < 0x100000000 := by
  obtain ⟨k, -, rfl⟩ := List.mem_map.mp h
  have hlength : ((bs.drop (k * w.bytes)).take w.bytes).length ≤ 4 :=
    (List.length_take_le _ _).trans w.bytes_le_four
  have hpow := Nat.pow_le_pow_right (n := 256) (by decide) hlength
  have hlt := number_lt ((bs.drop (k * w.bytes)).take w.bytes)
  omega

theorem digits_succ (count n : Nat) :
    digits (count + 1) n = digits count (n / 256) ++ [UInt8.ofNat n] := by
  have hplace : ∀ place, n / 256 ^ (place + 1) = n / 256 / 256 ^ place := by
    intro place
    rw [Nat.div_div_eq_div_mul, Nat.pow_succ, Nat.mul_comm]
  simp [digits, List.range_succ_eq_map, List.map_reverse, Function.comp_def, hplace]

theorem number_digits {count n : Nat} (h : n < 256 ^ count) : number (digits count n) = n := by
  induction count generalizing n with
  | zero =>
    rw [Nat.pow_zero, Nat.lt_one_iff] at h
    rw [h]
    rfl
  | succ count ih =>
    have hrest : number (digits count (n / 256)) = n / 256 := by
      apply ih
      rw [Nat.pow_succ] at h
      omega
    rw [digits_succ, number_concat, hrest, UInt8.toNat_ofNat']
    omega

end Bytes

/-! ## Runs of the reader -/

namespace Cursor

variable {c c' : Cursor} {w : Width}

/-- **Reading a value** succeeds exactly if its bytes are all there. -/
theorem next_cases (hm : c.memory.size < 0x100000000) (w : Width) :
    (c.rest.length < w.bytes ∧ c.next w = .error (c.memory.rangeFault c.address w.bytes)) ∨
    ∃ bs c', bs.length = w.bytes ∧ c.Moves bs c' ∧
      c.next w = .ok (UInt32.ofNat (Bytes.number bs), c') := by
  have hpos := w.bytes_pos
  have hlength := c.length_rest
  by_cases h : c.address.toNat + w.bytes ≤ c.memory.size
  · have hsplit := (List.take_append_drop w.bytes c.rest).symm
    have hbs : (c.rest.take w.bytes).length = w.bytes := by
      rw [List.length_take, hlength]
      omega
    obtain ⟨hmoves, -⟩ := moves_advance hsplit (by omega)
    have hread : c.memory.read w c.address = .ok (Bytes.decode (c.rest.take w.bytes)) :=
      read_ok_iff.mpr ⟨_, _, hsplit, hbs, rfl⟩
    refine .inr ⟨_, _, hbs, hmoves, ?_⟩
    rw [next, hread, hbs, Bytes.decode_eq_number]
    rfl
  · refine .inl ⟨by omega, ?_⟩
    have hrange : c.memory.inRange c.address w.bytes = false := decide_eq_false h
    rw [next, Memory.read, if_neg (by simp [hrange])]
    rfl

/-- **A run of the loop over code points** that ends. -/
inductive CodeRun (w : Width) : Cursor → Except Fault (List UInt32) → Prop
  | cut {c : Cursor} {f : Fault} (h : c.next w = .error f) : CodeRun w c (.error f)
  | done {c c' : Cursor} (h : c.next w = .ok (0, c')) : CodeRun w c (.ok [])
  | more {c c' : Cursor} {code : UInt32} {x : Except Fault (List UInt32)}
    (h : c.next w = .ok (code, c')) (hcode : code ≠ 0) (hx : CodeRun w c' x) :
    CodeRun w c (x.map (code :: ·))

theorem exists_codeRun (hm : c.memory.size < 0x100000000) (w : Width) : ∃ x, CodeRun w c x := by
  -- By induction on the number of bytes that are left.
  induction hn : c.rest.length using Nat.strongRecOn generalizing c with
  | ind n ih =>
    rcases next_cases hm w with ⟨-, hnext⟩ | ⟨bs, c', hbs, hmoves, hnext⟩
    · exact ⟨_, .cut hnext⟩
    · by_cases hcode : UInt32.ofNat (Bytes.number bs) = 0
      · rw [hcode] at hnext
        exact ⟨_, .done hnext⟩
      · have hlt : c'.rest.length < n := hn ▸ hmoves.length_rest_lt (hbs ▸ w.bytes_pos)
        obtain ⟨x, hx⟩ := ih _ hlt (hmoves.memory ▸ hm) rfl
        exact ⟨_, .more hnext hcode hx⟩

/-- A run comes to what the bounded loop gives, if the bound exceeds the number of bytes that are
left. -/
theorem CodeRun.codePoints_eq {x : Except Fault (List UInt32)} (h : CodeRun w c x)
    (hm : c.memory.size < 0x100000000) {fuel : Nat} (hfuel : c.rest.length ≤ fuel) :
    c.codePoints w (fuel + 1) = x := by
  induction h generalizing fuel with
  | cut h => simp only [codePoints, h, Bind.bind, Except.bind]
  | done h =>
    simp only [codePoints, h, Bind.bind, Except.bind, if_true]
    rfl
  | @more c c' code x h hcode hx ih =>
    obtain ⟨bs, hbs, hmoves⟩ : ∃ bs, bs.length = w.bytes ∧ c.Moves bs c' := by
      rcases next_cases hm w with ⟨-, hnext⟩ | ⟨bs, c₁, hbs, hmoves, hnext⟩
      · cases h.symm.trans hnext
      · cases h.symm.trans hnext
        exact ⟨bs, hbs, hmoves⟩
    have hlt := hmoves.length_rest_lt (hbs ▸ w.bytes_pos)
    obtain ⟨fuel, rfl⟩ := Nat.exists_eq_succ_of_ne_zero (n := fuel) (by omega)
    have hrest := ih (hmoves.memory ▸ hm) (show c'.rest.length ≤ fuel by omega)
    rw [codePoints, h]
    simp only [Bind.bind, Except.bind, if_neg hcode, hrest]
    cases x <;> rfl

/-- **What a run comes to**: the numbers before the first zero, or a fault if there is none. -/
theorem CodeRun.codes {x : Except Fault (List UInt32)} (h : CodeRun w c x)
    (hm : c.memory.size < 0x100000000) :
    (0 ∈ Bytes.numbers w c.rest →
      x = .ok (((Bytes.numbers w c.rest).takeWhile (· ≠ 0)).map UInt32.ofNat)) ∧
    (0 ∉ Bytes.numbers w c.rest → ∃ a, x = .error (.outOfRange a w.bytes c.memory.size)) := by
  induction h with
  | @cut c f h =>
    rcases next_cases hm w with ⟨hshort, hnext⟩ | ⟨bs, c', -, -, hnext⟩
    · rw [Bytes.numbers_of_lt hshort]
      obtain rfl := Except.error.inj (h.symm.trans hnext)
      exact ⟨fun hzero => absurd hzero List.not_mem_nil, fun _ => ⟨_, rfl⟩⟩
    · cases h.symm.trans hnext
  | @done c c' h =>
    rcases next_cases hm w with ⟨-, hnext⟩ | ⟨bs, c₁, hbs, hmoves, hnext⟩
    · cases h.symm.trans hnext
    · have hvalue : (0 : UInt32) = UInt32.ofNat (Bytes.number bs) :=
        congrArg Prod.fst (Except.ok.inj (h.symm.trans hnext))
      have hzero : Bytes.number bs = 0 := (Bytes.ofNat_number_eq_zero hbs).mp hvalue.symm
      rw [hmoves.rest, Bytes.numbers_append hbs, hzero]
      exact ⟨fun _ => rfl, fun hnone => absurd List.mem_cons_self hnone⟩
  | @more c c' code x h hcode hx ih =>
    rcases next_cases hm w with ⟨-, hnext⟩ | ⟨bs, c₁, hbs, hmoves, hnext⟩
    · cases h.symm.trans hnext
    · obtain ⟨rfl, rfl⟩ := Prod.mk.inj (Except.ok.inj (h.symm.trans hnext))
      have hne : Bytes.number bs ≠ 0 := fun hzero => hcode ((Bytes.ofNat_number_eq_zero hbs).mpr hzero)
      obtain ⟨hok, herror⟩ := ih (hmoves.memory ▸ hm)
      rw [hmoves.memory] at herror
      rw [hmoves.rest, Bytes.numbers_append hbs, List.takeWhile_cons_of_pos (by simpa using hne)]
      constructor
      · intro hzero
        rw [hok (List.mem_of_ne_of_mem hne.symm hzero)]
        rfl
      · intro hnone
        obtain ⟨a, ha⟩ := herror fun hzero => hnone (List.mem_cons_of_mem _ hzero)
        exact ⟨a, by rw [ha]; rfl⟩

/-- The cursor past the three bytes that follow the type byte of a wide string. -/
def pastPadding (c : Cursor) : Except Fault Cursor := do
  let (_, rest) ← c.next .byte
  let (_, rest) ← rest.next .byte
  let (_, rest) ← rest.next .byte
  return rest

theorem nextByte_cases (hm : c.memory.size < 0x100000000) :
    (c.rest = [] ∧ c.nextByte = .error (c.memory.rangeFault c.address 1)) ∨
    ∃ b c', c.Moves [b] c' ∧ c.nextByte = .ok (b, c') := by
  rw [nextByte]
  rcases next_cases hm .byte with ⟨hshort, hnext⟩ | ⟨bs, c', hbs, hmoves, hnext⟩
  · have hnil : c.rest = [] := List.length_eq_zero_iff.mp (Nat.lt_one_iff.mp hshort)
    exact .inl ⟨hnil, by rw [hnext]; rfl⟩
  · obtain ⟨b, rfl⟩ := List.length_eq_one_iff.mp hbs
    refine .inr ⟨b, c', hmoves, ?_⟩
    rw [hnext, Bytes.number_singleton]
    simp [Except.map]

theorem moves_of_nextByte (hm : c.memory.size < 0x100000000) {b : UInt8}
    (h : c.nextByte = .ok (b, c')) : c.Moves [b] c' := by
  rcases nextByte_cases hm with ⟨-, hnext⟩ | ⟨_, _, hmoves, hnext⟩
  · cases h.symm.trans hnext
  · cases h.symm.trans hnext
    exact hmoves

theorem pastPadding_cases (hm : c.memory.size < 0x100000000) :
    (c.rest.length < 3 ∧ ∃ a, c.pastPadding = .error (c.memory.rangeFault a 1)) ∨
    ∃ p q r c', c.Moves [p, q, r] c' ∧ c.pastPadding = .ok c' := by
  have hbyte : ∀ c : Cursor, c.memory.size < 0x100000000 →
      (c.rest = [] ∧ c.next .byte = .error (c.memory.rangeFault c.address 1)) ∨
      ∃ b v c', c.Moves [b] c' ∧ c.next .byte = .ok (v, c') := by
    intro c hm
    rcases next_cases hm .byte with ⟨hshort, hnext⟩ | ⟨bs, c', hbs, hmoves, hnext⟩
    · exact .inl ⟨List.length_eq_zero_iff.mp (Nat.lt_one_iff.mp hshort), hnext⟩
    · obtain ⟨b, rfl⟩ := List.length_eq_one_iff.mp hbs
      exact .inr ⟨b, _, c', hmoves, hnext⟩
  rcases hbyte c hm with ⟨hnil, hp⟩ | ⟨p, vp, c₁, hmoves₁, hp⟩
  · refine .inl ⟨by simp [hnil], c.address, ?_⟩
    simp only [pastPadding, hp, Bind.bind, Except.bind]
  rcases hbyte c₁ (hmoves₁.memory ▸ hm) with ⟨hnil, hq⟩ | ⟨q, vq, c₂, hmoves₂, hq⟩
  · refine .inl ⟨by simp [hmoves₁.rest, hnil], c₁.address, ?_⟩
    simp only [pastPadding, hp, hq, hmoves₁.memory, Bind.bind, Except.bind]
  have hmoves := hmoves₁.trans hmoves₂
  rcases hbyte c₂ (hmoves.memory ▸ hm) with ⟨hnil, hr⟩ | ⟨r, vr, c₃, hmoves₃, hr⟩
  · refine .inl ⟨by simp [hmoves.rest, hnil], c₂.address, ?_⟩
    simp only [pastPadding, hp, hq, hr, hmoves.memory, Bind.bind, Except.bind]
  · refine .inr ⟨p, q, r, c₃, hmoves.trans hmoves₃, ?_⟩
    simp only [pastPadding, hp, hq, hr, Bind.bind, Except.bind]
    rfl

theorem moves_of_pastPadding (hm : c.memory.size < 0x100000000) (h : c.pastPadding = .ok c') :
    ∃ p q r, c.Moves [p, q, r] c' := by
  rcases pastPadding_cases hm with ⟨-, a, hcut⟩ | ⟨p, q, r, c₁, hmoves, hok⟩
  · cases h.symm.trans hcut
  · cases h.symm.trans hok
    exact ⟨p, q, r, hmoves⟩

end Cursor

namespace Memory

open Cursor

/-- The text of a list of code points. -/
def textOf (codes : List UInt32) : String := String.ofList (codes.map Text.scalar)

/-- **A run of the reader** of string objects that ends. -/
inductive StringRun (m : Memory) (a : UInt32) : Except Fault String → Prop
  /-- There is no type byte. -/
  | outside {f : Fault} (h : nextByte ⟨m, a⟩ = .error f) : StringRun m a (.error f)
  | latin1 {c : Cursor} {x : Except Fault (List UInt32)} (h : nextByte ⟨m, a⟩ = .ok (0xE0, c))
    (hx : c.CodeRun .byte x) : StringRun m a (x.map textOf)
  /-- Memory ends before the first code point. -/
  | cut {c : Cursor} {f : Fault} (h : nextByte ⟨m, a⟩ = .ok (0xE2, c))
    (hpad : c.pastPadding = .error f) : StringRun m a (.error f)
  | wide {c c' : Cursor} {x : Except Fault (List UInt32)} (h : nextByte ⟨m, a⟩ = .ok (0xE2, c))
    (hpad : c.pastPadding = .ok c') (hx : c'.CodeRun .dword x) : StringRun m a (x.map textOf)
  | unsupported {c : Cursor} {b : UInt8} (h : nextByte ⟨m, a⟩ = .ok (b, c)) (hlatin1 : b ≠ 0xE0)
    (hwide : b ≠ 0xE2) : StringRun m a (.error (.unsupportedString a b))

variable {m : Memory} {a : UInt32}

/-- The reader as a choice by the type byte. -/
theorem readString_eq (m : Memory) (a : UInt32) : m.readString a = (do
    let (b, c) ← nextByte ⟨m, a⟩
    if b = 0xE0 then (c.codePoints .byte (m.size + 1)).map textOf
    else if b = 0xE2 then
      let c ← c.pastPadding
      (c.codePoints .dword (m.size + 1)).map textOf
    else .error (.unsupportedString a b)) := by
  unfold readString stringCodes
  rcases nextByte ⟨m, a⟩ with f | ⟨b, c⟩
  · rfl
  simp only [Bind.bind, Except.bind]
  by_cases hlatin1 : b = 0xE0
  · subst hlatin1
    rfl
  by_cases hwide : b = 0xE2
  · subst hwide
    rw [if_neg (by decide), if_pos rfl]
    rcases hp : c.next .byte with f | ⟨vp, c₁⟩
    · simp only [pastPadding, hp, Bind.bind, Except.bind, Except.map]
    rcases hq : c₁.next .byte with f | ⟨vq, c₂⟩
    · simp only [pastPadding, hp, hq, Bind.bind, Except.bind, Except.map]
    rcases hr : c₂.next .byte with f | ⟨vr, c₃⟩
    · simp only [pastPadding, hp, hq, hr, Bind.bind, Except.bind, Except.map]
    · simp only [pastPadding, hp, hq, hr, Bind.bind, Except.bind]
      rfl
  · rw [if_neg hlatin1, if_neg hwide]
    simp only [Except.map]

theorem exists_stringRun (hm : m.size < 0x100000000) (a : UInt32) : ∃ x, m.StringRun a x := by
  rcases nextByte_cases (c := ⟨m, a⟩) hm with ⟨-, hnext⟩ | ⟨b, c, hmoves, hnext⟩
  · exact ⟨_, .outside hnext⟩
  have hc : c.memory.size < 0x100000000 := hmoves.memory ▸ hm
  by_cases hlatin1 : b = 0xE0
  · subst hlatin1
    obtain ⟨x, hx⟩ := exists_codeRun hc .byte
    exact ⟨_, .latin1 hnext hx⟩
  by_cases hwide : b = 0xE2
  · subst hwide
    rcases pastPadding_cases hc with ⟨-, f, hpad⟩ | ⟨p, q, r, c', hmoves', hpad⟩
    · exact ⟨_, .cut hnext hpad⟩
    · obtain ⟨x, hx⟩ := exists_codeRun (hmoves'.memory ▸ hc) .dword
      exact ⟨_, .wide hnext hpad hx⟩
  · exact ⟨_, .unsupported hnext hlatin1 hwide⟩

/-- A run comes to what the reader gives. -/
theorem StringRun.readString_eq (hm : m.size < 0x100000000) {x : Except Fault String}
    (h : m.StringRun a x) : m.readString a = x := by
  have hcodes : ∀ {c : Cursor} {w : Width} {y : Except Fault (List UInt32)}, c.memory = m →
      c.CodeRun w y → c.codePoints w (m.size + 1) = y := by
    rintro c w y rfl hy
    refine hy.codePoints_eq hm ?_
    rw [length_rest]
    omega
  rw [Memory.readString_eq]
  cases h with
  | outside h =>
    rw [h]
    rfl
  | latin1 h hx =>
    have hmoves : Moves ⟨m, a⟩ _ _ := moves_of_nextByte hm h
    rw [h, ← hcodes hmoves.memory hx]
    rfl
  | cut h hpad =>
    rw [h]
    simp only [Bind.bind, Except.bind, hpad]
    rfl
  | @wide c c' x h hpad hx =>
    have hmoves : Moves ⟨m, a⟩ _ c := moves_of_nextByte hm h
    obtain ⟨p, q, r, hmoves'⟩ := moves_of_pastPadding (hmoves.memory ▸ hm) hpad
    rw [h, ← hcodes (hmoves'.memory.trans hmoves.memory) hx]
    simp only [Bind.bind, Except.bind, hpad]
    rfl
  | unsupported h hlatin1 hwide =>
    rw [h]
    simp only [Bind.bind, Except.bind, if_neg hlatin1, if_neg hwide]

/-- **Reading a string ends**, and runs come to what the reader gives. -/
theorem stringRun_iff (hm : m.size < 0x100000000) {x : Except Fault String} :
    m.StringRun a x ↔ m.readString a = x := by
  refine ⟨StringRun.readString_eq hm, ?_⟩
  rintro rfl
  obtain ⟨x, hx⟩ := exists_stringRun hm a
  rwa [hx.readString_eq hm]

/-! ## Texts -/

/-- **The code points of the string object** at an address: the bytes before the first zero byte, or
the dwords before the first zero dword that ends before memory does. -/
inductive HasCodes (m : Memory) (a : UInt32) : List Nat → Prop
  | latin1 {bs : List UInt8} (h : m.bytes.toList.drop a.toNat = 0xE0 :: bs) (hzero : 0 ∈ bs) :
    HasCodes m a ((bs.takeWhile (· ≠ 0)).map UInt8.toNat)
  | wide {p q r : UInt8} {bs : List UInt8}
    (h : m.bytes.toList.drop a.toNat = 0xE2 :: p :: q :: r :: bs)
    (hzero : 0 ∈ Bytes.numbers .dword bs) :
    HasCodes m a ((Bytes.numbers .dword bs).takeWhile (· ≠ 0))

/-- What a run of the reader comes to. -/
inductive Reads (m : Memory) (a : UInt32) : Except Fault String → Prop
  | text {codes : List Nat} {text : String} (h : m.HasCodes a codes)
    (hshows : List.Forall₂ Text.Shows codes text.toList) : Reads m a (.ok text)
  | unsupported {b : UInt8} {bs : List UInt8} (h : m.bytes.toList.drop a.toNat = b :: bs)
    (hlatin1 : b ≠ 0xE0) (hwide : b ≠ 0xE2) : Reads m a (.error (.unsupportedString a b))
  | outOfRange {address : UInt32} {length : Nat} (h : ∀ codes, ¬ m.HasCodes a codes)
    (hbyte : ∀ b bs, m.bytes.toList.drop a.toNat = b :: bs → b = 0xE0 ∨ b = 0xE2) :
    Reads m a (.error (.outOfRange address length m.size))

theorem shows_textOf (codes : List Nat) (h : ∀ n ∈ codes, n < 0x100000000) :
    List.Forall₂ Text.Shows codes (textOf (codes.map UInt32.ofNat)).toList := by
  rw [textOf, String.toList_ofList, List.map_map, List.forall₂_map_right_iff]
  refine List.forall₂_same.mpr fun n hn => ?_
  have hshows := Text.shows_scalar (UInt32.ofNat n)
  rwa [UInt32.toNat_ofNat_of_lt' (h n hn)] at hshows

theorem hasCodes_latin1_iff {bs : List UInt8} (h : m.bytes.toList.drop a.toNat = 0xE0 :: bs)
    {codes : List Nat} : m.HasCodes a codes ↔
      0 ∈ bs ∧ codes = (bs.takeWhile (· ≠ 0)).map UInt8.toNat := by
  constructor
  · intro hcodes
    cases hcodes with
    | latin1 h' hzero =>
      cases h.symm.trans h'
      exact ⟨hzero, rfl⟩
    | wide h' => cases h.symm.trans h'
  · rintro ⟨hzero, rfl⟩
    exact .latin1 h hzero

theorem hasCodes_wide_iff {p q r : UInt8} {bs : List UInt8}
    (h : m.bytes.toList.drop a.toNat = 0xE2 :: p :: q :: r :: bs) {codes : List Nat} :
    m.HasCodes a codes ↔
      0 ∈ Bytes.numbers .dword bs ∧ codes = (Bytes.numbers .dword bs).takeWhile (· ≠ 0) := by
  constructor
  · intro hcodes
    cases hcodes with
    | latin1 h' => cases h.symm.trans h'
    | wide h' hzero =>
      cases h.symm.trans h'
      exact ⟨hzero, rfl⟩
  · rintro ⟨hzero, rfl⟩
    exact .wide h hzero

/-- The bytes before the first zero, as numbers. -/
theorem takeWhile_numbers_byte (bs : List UInt8) :
    (Bytes.numbers .byte bs).takeWhile (· ≠ 0) = (bs.takeWhile (· ≠ 0)).map UInt8.toNat := by
  have hne : (fun n : Nat => decide (n ≠ 0)) ∘ UInt8.toNat = fun b : UInt8 => decide (b ≠ 0) := by
    funext b
    simp [← UInt8.toNat_inj]
  rw [Bytes.numbers_byte, List.takeWhile_map, hne]

theorem zero_mem_numbers_byte {bs : List UInt8} : 0 ∈ Bytes.numbers .byte bs ↔ 0 ∈ bs := by
  rw [Bytes.numbers_byte, List.mem_map]
  constructor
  · rintro ⟨b, hb, hzero⟩
    rwa [← UInt8.toNat_inj.mp (hzero.trans UInt8.toNat_zero.symm)]
  · intro hzero
    exact ⟨0, hzero, UInt8.toNat_zero⟩

theorem reads_latin1 (hm : m.size < 0x100000000) {c : Cursor} {x : Except Fault (List UInt32)}
    (hmoves : Moves ⟨m, a⟩ [0xE0] c) (hx : c.CodeRun .byte x) : m.Reads a (x.map textOf) := by
  have hsplit : m.bytes.toList.drop a.toNat = 0xE0 :: c.rest := hmoves.rest
  have hmemory : c.memory = m := hmoves.memory
  obtain ⟨hok, herror⟩ := hx.codes (hmemory ▸ hm)
  by_cases hzero : 0 ∈ Bytes.numbers .byte c.rest
  · have hcodes := (hasCodes_latin1_iff hsplit).mpr ⟨zero_mem_numbers_byte.mp hzero, rfl⟩
    rw [← takeWhile_numbers_byte] at hcodes
    rw [hok hzero]
    exact .text hcodes (shows_textOf _ fun n hn =>
      Bytes.lt_of_mem_numbers ((List.takeWhile_sublist _).subset hn))
  · obtain ⟨address, rfl⟩ := herror hzero
    rw [hmemory]
    refine .outOfRange (fun codes hcodes => ?_) fun b bs h => .inl ?_
    · exact hzero (zero_mem_numbers_byte.mpr ((hasCodes_latin1_iff hsplit).mp hcodes).1)
    · exact (List.cons.inj (h.symm.trans hsplit)).1

theorem reads_wide (hm : m.size < 0x100000000) {p q r : UInt8} {c : Cursor}
    {x : Except Fault (List UInt32)} (hmoves : Moves ⟨m, a⟩ [0xE2, p, q, r] c)
    (hx : c.CodeRun .dword x) : m.Reads a (x.map textOf) := by
  have hsplit : m.bytes.toList.drop a.toNat = 0xE2 :: p :: q :: r :: c.rest := hmoves.rest
  have hmemory : c.memory = m := hmoves.memory
  obtain ⟨hok, herror⟩ := hx.codes (hmemory ▸ hm)
  by_cases hzero : 0 ∈ Bytes.numbers .dword c.rest
  · rw [hok hzero]
    exact .text ((hasCodes_wide_iff hsplit).mpr ⟨hzero, rfl⟩) (shows_textOf _ fun n hn =>
      Bytes.lt_of_mem_numbers ((List.takeWhile_sublist _).subset hn))
  · obtain ⟨address, rfl⟩ := herror hzero
    rw [hmemory]
    refine .outOfRange (fun codes hcodes => ?_) fun b bs h => .inr ?_
    · exact hzero ((hasCodes_wide_iff hsplit).mp hcodes).1
    · exact (List.cons.inj (h.symm.trans hsplit)).1

theorem StringRun.reads (hm : m.size < 0x100000000) {x : Except Fault String}
    (h : m.StringRun a x) : m.Reads a x := by
  cases h with
  | outside h =>
    rcases nextByte_cases (c := ⟨m, a⟩) hm with ⟨hnil, hnext⟩ | ⟨_, _, -, hnext⟩
    · cases h.symm.trans hnext
      have hnil : m.bytes.toList.drop a.toNat = [] := hnil
      refine .outOfRange (fun codes hcodes => ?_) fun b bs h => ?_
      · cases hcodes with
        | latin1 h => cases hnil.symm.trans h
        | wide h => cases hnil.symm.trans h
      · cases hnil.symm.trans h
    · cases h.symm.trans hnext
  | latin1 h hx => exact reads_latin1 hm (moves_of_nextByte hm h) hx
  | @cut c f h hpad =>
    have hmoves : Moves ⟨m, a⟩ _ c := moves_of_nextByte hm h
    have hmemory : c.memory = m := hmoves.memory
    have hsplit : m.bytes.toList.drop a.toNat = 0xE2 :: c.rest := hmoves.rest
    rcases pastPadding_cases (c := c) (hmemory ▸ hm) with ⟨hshort, _, hcut⟩ | ⟨_, _, _, _, -, hok⟩
    · cases hpad.symm.trans hcut
      rw [hmemory]
      refine .outOfRange (fun codes hcodes => ?_) fun b bs h => .inr ?_
      · cases hcodes with
        | latin1 h => cases hsplit.symm.trans h
        | wide h =>
          have hrest := (List.cons.inj (hsplit.symm.trans h)).2
          simp only [hrest, List.length_cons] at hshort
          omega
      · exact (List.cons.inj (h.symm.trans hsplit)).1
    · cases hpad.symm.trans hok
  | wide h hpad hx =>
    have hmoves := moves_of_nextByte hm h
    obtain ⟨p, q, r, hmoves'⟩ := moves_of_pastPadding (hmoves.memory ▸ hm) hpad
    exact reads_wide hm (hmoves.trans hmoves') hx
  | unsupported h hlatin1 hwide =>
    have hmoves := moves_of_nextByte hm h
    exact .unsupported hmoves.rest hlatin1 hwide

theorem reads_readString (hm : m.size < 0x100000000) (a : UInt32) : m.Reads a (m.readString a) :=
  ((stringRun_iff hm).mpr rfl).reads hm

theorem HasCodes.unique {codes codes' : List Nat} (h : m.HasCodes a codes)
    (h' : m.HasCodes a codes') : codes = codes' := by
  cases h with
  | latin1 h => exact ((hasCodes_latin1_iff h).mp h').2.symm
  | wide h => exact ((hasCodes_wide_iff h).mp h').2.symm

/-- **A string object that ends** can be read. -/
theorem HasCodes.readString (hm : m.size < 0x100000000) {codes : List Nat}
    (h : m.HasCodes a codes) :
    ∃ text, m.readString a = .ok text ∧ List.Forall₂ Text.Shows codes text.toList := by
  have hreads := reads_readString hm a
  generalize m.readString a = x at hreads
  cases hreads with
  | text h' hshows => exact ⟨_, rfl, h.unique h' ▸ hshows⟩
  | unsupported hsplit hlatin1 hwide =>
    cases h with
    | latin1 h => exact absurd (List.cons.inj (hsplit.symm.trans h)).1 hlatin1
    | wide h => exact absurd (List.cons.inj (hsplit.symm.trans h)).1 hwide
  | outOfRange hnone => exact absurd h (hnone codes)

theorem readString_ok_iff (hm : m.size < 0x100000000) {text : String} :
    m.readString a = .ok text ↔
      ∃ codes, m.HasCodes a codes ∧ List.Forall₂ Text.Shows codes text.toList := by
  constructor
  · intro h
    have hreads := reads_readString hm a
    rw [h] at hreads
    cases hreads with
    | text hcodes hshows => exact ⟨_, hcodes, hshows⟩
  · rintro ⟨codes, hcodes, hshows⟩
    obtain ⟨text', htext, hshows'⟩ := hcodes.readString hm
    rw [htext, String.toList_inj.mp (Text.eq_of_shows hshows' hshows)]

/-! ## Objects that were written -/

/-- The object of a Latin-1 text. -/
def latin1Object (text : String) : List UInt8 :=
  0xE0 :: (text.toList.map fun c => UInt8.ofNat c.toNat) ++ [0]

/-- The object of a text of any characters, with the three bytes behind its type byte. -/
def wideObject (p q r : UInt8) (text : String) : List UInt8 :=
  0xE2 :: p :: q :: r :: text.toList.flatMap (fun c => Bytes.digits 4 c.toNat) ++ Bytes.digits 4 0

theorem takeWhile_ne_append {α : Type} [DecidableEq α] {z : α} {xs tail : List α} (h : z ∉ xs) :
    (xs ++ z :: tail).takeWhile (· ≠ z) = xs := by
  have hall : ∀ x ∈ xs, decide (x ≠ z) = true := fun x hx =>
    decide_eq_true fun heq => h (heq ▸ hx)
  rw [List.takeWhile_append_of_pos hall, List.takeWhile_cons_of_neg (by simp), List.append_nil]

theorem numbers_digits {n : Nat} (h : n < 256 ^ 4) (tail : List UInt8) :
    Bytes.numbers .dword (Bytes.digits 4 n ++ tail) = n :: Bytes.numbers .dword tail := by
  rw [Bytes.numbers_append (w := .dword) (Bytes.length_digits 4 n), Bytes.number_digits h]

theorem numbers_wide (text : List Char) (tail : List UInt8) :
    Bytes.numbers .dword (text.flatMap (fun c => Bytes.digits 4 c.toNat) ++ tail) =
      text.map Char.toNat ++ Bytes.numbers .dword tail := by
  induction text with
  | nil => rfl
  | cons c text ih =>
    have hlt : c.toNat < 256 ^ 4 := c.val.toNat_lt
    rw [List.flatMap_cons, List.append_assoc, numbers_digits hlt, ih]
    rfl

/-- **A Latin-1 text is read back**, whatever stands behind it. -/
theorem readString_latin1Object (hm : m.size < 0x100000000) {text : String} {tail : List UInt8}
    (htext : ∀ c ∈ text.toList, c.toNat ≠ 0 ∧ c.toNat < 256)
    (h : m.bytes.toList.drop a.toNat = latin1Object text ++ tail) : m.readString a = .ok text := by
  have htoNat : ∀ c ∈ text.toList, (UInt8.ofNat c.toNat).toNat = c.toNat := fun c hc =>
    UInt8.toNat_ofNat_of_lt' (htext c hc).2
  have hnonzero : (0 : UInt8) ∉ text.toList.map fun c => UInt8.ofNat c.toNat := by
    intro hzero
    obtain ⟨c, hc, hc0⟩ := List.mem_map.mp hzero
    have hcode := htoNat c hc
    rw [hc0] at hcode
    exact (htext c hc).1 hcode.symm
  have hsplit : m.bytes.toList.drop a.toNat =
      0xE0 :: ((text.toList.map fun c => UInt8.ofNat c.toNat) ++ 0 :: tail) := by
    rw [h, latin1Object, List.cons_append, List.cons_append, List.append_assoc]
    rfl
  refine (readString_ok_iff hm).mpr
    ⟨_, .latin1 hsplit (List.mem_append_right _ List.mem_cons_self), ?_⟩
  rw [takeWhile_ne_append hnonzero, List.map_map, List.forall₂_map_left_iff]
  refine List.forall₂_same.mpr fun c hc => ?_
  rw [Function.comp_apply, htoNat c hc]
  exact .char c

/-- **A text of any characters is read back**, whatever stands behind it. -/
theorem readString_wideObject (hm : m.size < 0x100000000) {p q r : UInt8} {text : String}
    {tail : List UInt8} (htext : ∀ c ∈ text.toList, c.toNat ≠ 0)
    (h : m.bytes.toList.drop a.toNat = wideObject p q r text ++ tail) :
    m.readString a = .ok text := by
  have hsplit : m.bytes.toList.drop a.toNat = 0xE2 :: p :: q :: r ::
      (text.toList.flatMap (fun c => Bytes.digits 4 c.toNat) ++ (Bytes.digits 4 0 ++ tail)) := by
    rw [h, wideObject, List.append_assoc]
    rfl
  have hnumbers := numbers_wide text.toList (Bytes.digits 4 0 ++ tail)
  rw [numbers_digits (by decide)] at hnumbers
  have hnonzero : 0 ∉ text.toList.map Char.toNat := by
    intro hzero
    obtain ⟨c, hc, hc0⟩ := List.mem_map.mp hzero
    exact htext c hc hc0
  have hcodes := (hasCodes_wide_iff hsplit).mpr
    ⟨hnumbers ▸ List.mem_append_right _ List.mem_cons_self, rfl⟩
  rw [hnumbers, takeWhile_ne_append hnonzero] at hcodes
  exact (readString_ok_iff hm).mpr ⟨_, hcodes, Text.shows_chars text.toList⟩

/-- **String objects are read exactly**, in a memory shorter than `2 ^ 32` bytes. The reader ends. It
gives a text exactly if there is an object that ends in memory, with the characters that its code
points show as. Another type byte is reported, and what else fails has left memory. A text that was
written as either kind of object is read back, wherever it stands. -/
theorem readString_exact (m : Memory) (hm : m.size < 0x100000000) (a : UInt32) :
    (∀ x, m.StringRun a x ↔ m.readString a = x) ∧
      ((∃ text, m.readString a = .ok text) ↔ ∃ codes, m.HasCodes a codes) ∧
      (∀ text codes, m.readString a = .ok text → m.HasCodes a codes →
        List.Forall₂ Text.Shows codes text.toList) ∧
      (∀ b bs, m.bytes.toList.drop a.toNat = b :: bs → b ≠ 0xE0 → b ≠ 0xE2 →
        m.readString a = .error (.unsupportedString a b)) ∧
      (∀ f, m.readString a = .error f →
        (∃ b bs, m.bytes.toList.drop a.toNat = b :: bs ∧ b ≠ 0xE0 ∧ b ≠ 0xE2 ∧
          f = .unsupportedString a b) ∨ ∃ address length, f = .outOfRange address length m.size) ∧
      (∀ text tail, (∀ c ∈ text.toList, c.toNat ≠ 0 ∧ c.toNat < 256) →
        m.bytes.toList.drop a.toNat = latin1Object text ++ tail → m.readString a = .ok text) ∧
      ∀ p q r text tail, (∀ c ∈ text.toList, c.toNat ≠ 0) →
        m.bytes.toList.drop a.toNat = wideObject p q r text ++ tail → m.readString a = .ok text := by
  have hreads := reads_readString hm a
  refine ⟨fun x => stringRun_iff hm, ⟨?_, ?_⟩, ?_, ?_, ?_, fun text tail =>
    readString_latin1Object hm, fun p q r text tail => readString_wideObject hm⟩
  · rintro ⟨text, htext⟩
    obtain ⟨codes, hcodes, -⟩ := (readString_ok_iff hm).mp htext
    exact ⟨codes, hcodes⟩
  · rintro ⟨codes, hcodes⟩
    obtain ⟨text, htext, -⟩ := hcodes.readString hm
    exact ⟨text, htext⟩
  · intro text codes htext hcodes
    obtain ⟨codes', hcodes', hshows⟩ := (readString_ok_iff hm).mp htext
    exact hcodes.unique hcodes' ▸ hshows
  · intro b bs h hlatin1 hwide
    generalize m.readString a = x at hreads
    cases hreads with
    | text hcodes =>
      cases hcodes with
      | latin1 h' => exact absurd (List.cons.inj (h.symm.trans h')).1 hlatin1
      | wide h' => exact absurd (List.cons.inj (h.symm.trans h')).1 hwide
    | unsupported h' => rw [(List.cons.inj (h.symm.trans h')).1]
    | outOfRange _ hbyte =>
      rcases hbyte b bs h with hb | hb
      · exact absurd hb hlatin1
      · exact absurd hb hwide
  · intro f hf
    rw [hf] at hreads
    cases hreads with
    | unsupported h hlatin1 hwide => exact .inl ⟨_, _, h, hlatin1, hwide, rfl⟩
    | outOfRange => exact .inr ⟨_, _, rfl⟩

/-- An object of two code points, the second of which is no character. -/
def spelled : Memory :=
  { bytes := #[7, 0xE2, 1, 2, 3, 0, 1, 0xF6, 0, 0, 0, 0xD8, 0, 0, 0, 0, 0, 7] }

theorem readString_exact_spelled :
    spelled.size < 0x100000000 ∧ spelled.readString 1 = .ok "😀\uFFFD" ∧
      spelled.readString 0 = .error (.unsupportedString 0 7) := by
  have hm : spelled.size < 0x100000000 := by decide
  obtain ⟨-, hok, htext, -⟩ := readString_exact spelled hm 1
  obtain ⟨-, -, -, hother, -⟩ := readString_exact spelled hm 0
  have hcodes : spelled.HasCodes 1 [0x1F600, 0xD800] :=
    (hasCodes_wide_iff rfl).mpr ⟨by decide, by decide⟩
  refine ⟨hm, ?_, hother 7 _ rfl (by decide) (by decide)⟩
  obtain ⟨text, htext'⟩ := hok.mpr ⟨_, hcodes⟩
  have hshows : List.Forall₂ Text.Shows [0x1F600, 0xD800] "😀\uFFFD".toList := by
    refine .cons (.char '😀') (.cons (.replaced fun c hc => ?_) .nil)
    have hvalid : (0xD800 : Nat).isValidChar := hc ▸ c.valid
    exact absurd hvalid (by decide)
  rw [htext', String.toList_inj.mp (Text.eq_of_shows (htext text _ htext' hcodes) hshows)]

end Memory

end StoryVM
