import Mathlib.Algebra.GroupWithZero.Nat
import Mathlib.Data.List.InsertIdx
import Mathlib.Data.List.Range
import StoryVM.Proofs.ReadOnly

/-! # Loading a story

Which images are stories, and what machine comes of one. An image is described by the values at the
offsets of its header (`Image.header`), without the cursor that reads it, and by the sum of its
dwords (`Image.sum`), without the pass that adds them up.

* `Image.WellFormed`: what is asked of an image before its start routine is read.
* `Image.memory`: the memory that a well-formed image is laid out in.
* `Story.layOut_eq`: an image is laid out exactly if it is well formed.
* `Story.load_iff`: it is loaded exactly if its start routine can be read as well. -/

namespace StoryVM

namespace Image

/-! ## The parts of an image -/

/-- The value at an offset of an image. -/
def field (image : Array UInt8) (w : Width) (offset : Nat) : UInt32 :=
  Bytes.decode (Bytes.window image offset w.bytes)

/-- **The header of an image**, by the offsets of its fields. -/
def header (image : Array UInt8) : Header where
  version :=
    ⟨(field image .word 4).toUInt16, (field image .byte 6).toUInt8, (field image .byte 7).toUInt8⟩
  ramStart := field image .dword 8
  extStart := field image .dword 12
  endMem := field image .dword 16
  stackSize := field image .dword 20
  startFunc := field image .dword 24
  decodingTable := field image .dword 28
  checksum := field image .dword 32

/-- The numbers of the dwords that count: all whole dwords but the one at offset 32. -/
def summed (image : Array UInt8) : List Nat := (List.range (image.size / 4)).erase 8

/-- **The sum of the dwords of an image** as a natural number. -/
def sum (image : Array UInt8) : Nat :=
  ((summed image).map fun k => (field image .dword (4 * k)).toNat).sum

/-- **A well-formed image.** -/
structure WellFormed (image : Array UInt8) : Prop where
  size : 36 ≤ image.size
  magic : field image .dword 0 = 0x476C756C
  length : (header image).extStart.toNat = image.size
  checksum : (header image).checksum.toNat = sum image % 0x100000000
  stack : (header image).stackSize.toNat % 256 = 0
  room : (header image).extStart.toNat ≤ (header image).endMem.toNat

/-- **The memory of an image**: the image, zeros up to its end, and what lies below the start of
writable memory protected. -/
def memory (image : Array UInt8) : Memory where
  bytes := image ++ Array.replicate ((header image).endMem.toNat - image.size) 0
  regions := [⟨0, (header image).ramStart⟩]

/-- The routine that an image starts with. -/
def start (image : Array UInt8) : Except Fault Routine :=
  Routine.decode (memory image) (header image).startFunc (header image).ramStart

end Image

/-! ## The checksum -/

theorem toNat_foldl_add (vs : List UInt32) (acc : UInt32) :
    (vs.foldl (· + ·) acc).toNat = (acc.toNat + (vs.map UInt32.toNat).sum) % 0x100000000 := by
  induction vs generalizing acc with
  | nil =>
    have hlt := acc.toNat_lt
    simp only [List.foldl_nil, List.map_nil, List.sum_nil]
    omega
  | cons v rest ih =>
    rw [List.foldl_cons, ih, UInt32.toNat_add, List.map_cons, List.sum_cons]
    omega

theorem eraseIdx_range (n i : Nat) : (List.range n).eraseIdx i = (List.range n).erase i := by
  by_cases h : i < n
  · have hlength : i < (List.range n).length := by rwa [List.length_range]
    have herase := List.nodup_range.erase_getElem i hlength
    rwa [List.getElem_range, eq_comm] at herase
  · have hnot : i ∉ List.range n := by rwa [List.mem_range]
    rw [List.erase_of_not_mem hnot, List.eraseIdx_of_length_le]
    rw [List.length_range]
    omega

/-- **The checksum is the sum** of the dwords modulo `2 ^ 32`. -/
theorem Memory.toNat_checksum (image : Array UInt8) (regions : List Region) :
    (Memory.checksum ⟨image, regions⟩).toNat = Image.sum image % 0x100000000 := by
  have hdwords : (Memory.dwords ⟨image, regions⟩).eraseIdx Header.checksumIndex =
      (Image.summed image).map fun k => Image.field image .dword (4 * k) := by
    rw [Memory.dwords, List.eraseIdx_map, eraseIdx_range]
    rfl
  rw [Memory.checksum, hdwords, toNat_foldl_add, List.map_map, UInt32.toNat_zero, Nat.zero_add]
  rfl

/-! ## The header -/

theorem Cursor.next_of_le {m : Memory} {a b : UInt32} {w : Width} (h : a.toNat + w.bytes ≤ m.size)
    (hb : a + UInt32.ofNat w.bytes = b) :
    Cursor.next ⟨m, a⟩ w = .ok (Image.field m.bytes w a.toNat, ⟨m, b⟩) := by
  have hrange : m.inRange a w.bytes = true := decide_eq_true h
  rw [← hb, Cursor.next, Memory.read, if_pos hrange]
  rfl

/-- **Reading the header** of an image that is long enough gives the values at its offsets, after a
look at the first. -/
theorem Header.read_eq {image : Array UInt8} {regions : List Region} (h : 36 ≤ image.size) :
    Header.read ⟨image, regions⟩ =
      if Image.field image .dword 0 = 0x476C756C then .ok (Image.header image)
      else .error (.malformedImage (.badMagic (Image.field image .dword 0))) := by
  have hnext : ∀ (a b : UInt32) (w : Width), a.toNat + w.bytes ≤ 36 → a + UInt32.ofNat w.bytes = b →
      Cursor.next ⟨⟨image, regions⟩, a⟩ w =
        .ok (Image.field image w a.toNat, ⟨⟨image, regions⟩, b⟩) :=
    fun a b w ha hb => Cursor.next_of_le (Nat.le_trans ha h) hb
  have hsize : ¬ (Memory.size ⟨image, regions⟩ < Header.bytes) := Nat.not_lt.mpr h
  unfold Header.read
  rw [if_neg hsize]
  simp only [Cursor.nextByte, hnext 0 4 .dword (by decide) rfl, hnext 4 6 .word (by decide) rfl,
    hnext 6 7 .byte (by decide) rfl, hnext 7 8 .byte (by decide) rfl,
    hnext 8 12 .dword (by decide) rfl, hnext 12 16 .dword (by decide) rfl,
    hnext 16 20 .dword (by decide) rfl, hnext 20 24 .dword (by decide) rfl,
    hnext 24 28 .dword (by decide) rfl, hnext 28 32 .dword (by decide) rfl,
    hnext 32 36 .dword (by decide) rfl, Bind.bind, Except.bind, Except.map]
  by_cases hmagic : Image.field image .dword 0 = 0x476C756C
  · rw [if_pos hmagic]
    exact if_neg (not_not_intro hmagic)
  · rw [if_neg hmagic]
    exact if_pos hmagic

/-! ## Laying out -/

namespace Story

/-- **An image is laid out exactly if it is well formed.** Every other image is reported as
malformed. -/
theorem layOut_eq (image : Array UInt8) :
    (Image.WellFormed image ∧ layOut image = .ok (Image.header image, Image.memory image)) ∨
      ¬ Image.WellFormed image ∧ ∃ cause, layOut image = .error (.malformedImage cause) := by
  by_cases hbytes : image.size < 36
  · have hread : Header.read ⟨image, []⟩ = .error (.malformedImage (.tooShort image.size 36)) :=
      if_pos hbytes
    refine .inr ⟨fun h => Nat.not_le.mpr hbytes h.size, .tooShort image.size 36, ?_⟩
    unfold layOut
    simp only [hread, Bind.bind, Except.bind]
  have hsize : 36 ≤ image.size := Nat.not_lt.mp hbytes
  by_cases hmagic : Image.field image .dword 0 = 0x476C756C
  case neg =>
    refine .inr ⟨fun h => hmagic h.magic, .badMagic (Image.field image .dword 0), ?_⟩
    unfold layOut
    simp only [Header.read_eq hsize, if_neg hmagic, Bind.bind, Except.bind]
  unfold layOut
  simp only [Header.read_eq hsize, if_pos hmagic, Bind.bind, Except.bind]
  -- The checks that are left, in the order in which they are made.
  split
  · next hlength => exact .inr ⟨fun h => hlength h.length.symm, _, rfl⟩
  next hlength =>
  split
  · next hchecksum =>
    refine .inr ⟨fun h => hchecksum (UInt32.toNat_inj.mp ?_), _, rfl⟩
    rw [Memory.toNat_checksum, h.checksum]
  next hchecksum =>
  split
  · next hstack =>
    refine .inr ⟨fun h => hstack (UInt32.toNat_inj.mp ?_), _, rfl⟩
    rw [UInt32.toNat_mod]
    exact h.stack
  next hstack =>
  have hlength' : (Image.header image).extStart.toNat = image.size := (not_not.mp hlength).symm
  by_cases hroom : (Image.header image).endMem.toNat < image.size
  · have hexpand : Memory.expand ⟨image, []⟩ (Image.header image).endMem =
        .error (.memoryShrinks (Image.header image).endMem.toNat image.size) := if_pos hroom
    refine .inr ⟨fun h => ?_, .endBelowStart (Image.header image).endMem
      (Image.header image).extStart, ?_⟩
    · have hle := h.room
      omega
    · rw [hexpand]
      rfl
  · have hexpand : Memory.expand ⟨image, []⟩ (Image.header image).endMem =
        .ok ⟨(Image.memory image).bytes, []⟩ := if_neg hroom
    refine .inl ⟨⟨hsize, hmagic, hlength', ?_, ?_, ?_⟩, ?_⟩
    · rw [← not_not.mp hchecksum, Memory.toNat_checksum]
    · have hzero := congrArg UInt32.toNat (not_not.mp hstack)
      rwa [UInt32.toNat_mod] at hzero
    · omega
    · rw [hexpand]
      rfl

/-! ## Loading -/

variable {σ : Type}

/-- **The story that an image is loaded as**: its memory, nothing on the value stack, nothing
running and nothing counted yet, and the start routine as the only one that has been read. -/
structure Loads (image : Array UInt8) (host : σ) (limits : Limits) (s : Story σ) : Prop where
  header : s.header = Image.header image
  start : Image.start image = .ok s.start
  bytes : s.machine.memory.bytes =
    image ++ Array.replicate ((Image.header image).endMem.toNat - image.size) 0
  regions : s.machine.memory.regions = [⟨0, (Image.header image).ramStart⟩]
  stack : s.machine.stack = Stack.empty (Image.header image).stackSize.toNat
  frames : s.machine.frames = #[]
  steps : s.machine.steps = 0
  halted : s.machine.halted = false
  routines : ∀ address, s.machine.routines.get? address =
    if address = (Image.header image).startFunc then some s.start else none
  ramStart : s.machine.ramStart = (Image.header image).ramStart
  host : s.machine.host = host
  limits : s.machine.limits = limits

theorem get?_insert_empty (start : UInt32) (r : Routine) (address : UInt32) :
    ((∅ : Std.TreeMap UInt32 Routine).insert start r).get? address =
      if address = start then some r else none := by
  rw [Std.TreeMap.get?_eq_getElem?, Std.TreeMap.getElem?_insert]
  by_cases h : address = start
  · rw [if_pos h, if_pos (Std.LawfulEqCmp.compare_eq_iff_eq.mpr h.symm)]
  · rw [if_neg h, if_neg (mt Std.LawfulEqCmp.compare_eq_iff_eq.mp (Ne.symm h)),
      Std.TreeMap.getElem?_eq_none Std.TreeMap.not_mem_emptyc]

theorem load_malformed {image : Array UInt8} (h : ¬ Image.WellFormed image) (host : σ)
    (limits : Limits) : ∃ cause, load image host limits = .error ⟨.malformedImage cause, #[]⟩ := by
  rcases layOut_eq image with ⟨hwell, -⟩ | ⟨-, cause, hlayOut⟩
  · exact absurd hwell h
  · refine ⟨cause, ?_⟩
    unfold load
    rw [hlayOut]

/-- **A well-formed image** is loaded unless its start routine cannot be read. -/
theorem load_wellFormed {image : Array UInt8} (h : Image.WellFormed image) (host : σ)
    (limits : Limits) :
    (∃ fault, Image.start image = .error fault ∧
      load image host limits = .error ⟨fault, #[.loading (Image.header image)]⟩) ∨
    ∃ r s, Image.start image = .ok r ∧ load image host limits = .ok s ∧
      Loads image host limits s := by
  obtain ⟨-, hlayOut⟩ | ⟨hnot, -⟩ := layOut_eq image
  case inr => exact absurd h hnot
  unfold load Machine.routineAt
  rw [hlayOut]
  cases hstart : Image.start image with
  | error fault =>
    refine .inl ⟨fault, rfl, ?_⟩
    unfold Image.start at hstart
    simp only [Std.TreeMap.get?_eq_getElem?, Std.TreeMap.not_mem_emptyc, not_false_eq_true,
      Std.TreeMap.getElem?_eq_none, hstart]
  | ok r =>
    have hread := hstart
    unfold Image.start at hread
    simp only [Std.TreeMap.get?_eq_getElem?, Std.TreeMap.not_mem_emptyc, not_false_eq_true,
      Std.TreeMap.getElem?_eq_none, hread]
    exact .inr ⟨r, _, rfl, rfl, rfl, hstart, rfl, rfl, rfl, rfl, rfl, rfl,
      get?_insert_empty (Image.header image).startFunc r, rfl, rfl, rfl⟩

theorem Loads.of_load {image : Array UInt8} {host : σ} {limits : Limits} {s : Story σ}
    (h : load image host limits = .ok s) : Image.WellFormed image ∧ Loads image host limits s := by
  by_cases hw : Image.WellFormed image
  · obtain ⟨fault, -, hload⟩ | ⟨r, s', -, hload, hloads⟩ := load_wellFormed hw host limits
    · rw [hload] at h
      cases h
    · rw [hload] at h
      obtain rfl := Except.ok.inj h
      exact ⟨hw, hloads⟩
  · obtain ⟨cause, hload⟩ := load_malformed hw host limits
    rw [hload] at h
    cases h

/-- **Loading accepts exactly the stories.** An image is loaded if and only if it is well formed and
its start routine can be read from the memory that it is laid out in. It is reported as malformed if
it is not well formed, and otherwise with the fault of reading its start routine. What is loaded is
the story of the image. -/
theorem load_iff (image : Array UInt8) (host : σ) (limits : Limits) :
    ((∃ s, load image host limits = .ok s) ↔
      Image.WellFormed image ∧ ∃ r, Image.start image = .ok r) ∧
    (¬ Image.WellFormed image →
      ∃ cause, load image host limits = .error ⟨.malformedImage cause, #[]⟩) ∧
    (∀ fault, Image.WellFormed image → Image.start image = .error fault →
      load image host limits = .error ⟨fault, #[.loading (Image.header image)]⟩) ∧
    ∀ s, load image host limits = .ok s → Loads image host limits s := by
  refine ⟨⟨?_, ?_⟩, fun h => load_malformed h host limits, ?_, fun s hload => (Loads.of_load hload).2⟩
  · rintro ⟨s, hload⟩
    obtain ⟨hw, hloads⟩ := Loads.of_load hload
    exact ⟨hw, s.start, hloads.start⟩
  · rintro ⟨hw, r, hstart⟩
    obtain ⟨fault, hfault, -⟩ | ⟨-, s, -, hload, -⟩ := load_wellFormed hw host limits
    · rw [hfault] at hstart
      cases hstart
    · exact ⟨s, hload⟩
  · intro fault hw hstart
    obtain ⟨fault', hfault, hload⟩ | ⟨r, -, hok, -⟩ := load_wellFormed hw host limits
    · rw [hfault] at hstart
      rw [hload, Except.error.inj hstart]
    · rw [hok] at hstart
      cases hstart

theorem load_iff_touching :
    (∃ s : Story Silent, load touching {} {} = .ok s ∧ Image.WellFormed touching ∧
      Loads touching {} {} s) ∧
    ∃ cause, load (touching.push 0) ({} : Silent) {} = .error ⟨.malformedImage cause, #[]⟩ := by
  refine ⟨?_, (load_iff (touching.push 0) {} {}).2.1 fun h => absurd h.length (by decide +kernel)⟩
  obtain ⟨s, hload, -⟩ := exists_loaded touching ({} : Silent) {} (fun _ => True) (by decide +kernel)
  obtain ⟨hiff, -, -, hloads⟩ := load_iff touching ({} : Silent) {}
  exact ⟨s, hload, (hiff.mp ⟨s, hload⟩).1, hloads s hload⟩

end Story

end StoryVM
