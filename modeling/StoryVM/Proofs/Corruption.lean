import Mathlib.Algebra.BigOperators.Group.List.Basic
import StoryVM.Proofs.Loading

/-! # Corrupted images

One byte of a story is changed. If it lies in a whole dword of the image, the image is not well
formed any more: either the checksum that the header gives has changed, or the sum of the dwords
has, and never both. Bytes behind the last whole dword are not summed, and no check sees a change
there.

* `Image.Altered`: two images that differ in one byte.
* `Image.Altered.not_wellFormed`, `Image.Altered.wellFormed`: what becomes of a well-formed image.
* `Story.load_altered`: a corrupted story is refused. -/

namespace StoryVM

namespace Image

/-- **Two images that differ in one byte**, the one at offset `i`. -/
structure Altered (image altered : Array UInt8) (i : Nat) : Prop where
  size : altered.size = image.size
  differs : altered[i]? ≠ image[i]?
  rest : ∀ j, j ≠ i → altered[j]? = image[j]?

/-! ## Fields -/

/-- The value of a dword, by its bytes. -/
theorem toNat_dword (image : Array UInt8) (offset : Nat) :
    (field image .dword offset).toNat =
      (image.getD offset 0).toNat * 0x1000000 + (image.getD (offset + 1) 0).toNat * 0x10000 +
        (image.getD (offset + 2) 0).toNat * 0x100 + (image.getD (offset + 3) 0).toNat := by
  have h₀ := (image.getD offset 0).toNat_lt
  have h₁ := (image.getD (offset + 1) 0).toNat_lt
  have h₂ := (image.getD (offset + 2) 0).toNat_lt
  have h₃ := (image.getD (offset + 3) 0).toNat_lt
  have hwindow : Bytes.window image offset 4 = [image.getD offset 0, image.getD (offset + 1) 0,
      image.getD (offset + 2) 0, image.getD (offset + 3) 0] := rfl
  rw [field, Width.bytes, hwindow, Bytes.decode]
  simp only [List.foldl_cons, List.foldl_nil, UInt32.toNat_add, UInt32.toNat_mul,
    UInt8.toNat_toUInt32, UInt32.toNat_ofNat]
  omega

/-- **Dwords with the same value have the same bytes.** -/
theorem getD_of_dword_eq {image altered : Array UInt8} {offset j : Nat}
    (h : field altered .dword offset = field image .dword offset) (hlo : offset ≤ j)
    (hhi : j < offset + 4) : altered.getD j 0 = image.getD j 0 := by
  have hvalue := congrArg UInt32.toNat h
  rw [toNat_dword, toNat_dword] at hvalue
  have hbyte : ∀ (bytes : Array UInt8) (k : Nat), (bytes.getD k 0).toNat < 0x100 :=
    fun bytes k => (bytes.getD k 0).toNat_lt
  have h₁ := hbyte image (offset + 1)
  have h₂ := hbyte image (offset + 2)
  have h₃ := hbyte image (offset + 3)
  have h₁' := hbyte altered (offset + 1)
  have h₂' := hbyte altered (offset + 2)
  have h₃' := hbyte altered (offset + 3)
  apply UInt8.toNat_inj.mp
  obtain rfl | rfl | rfl | rfl : j = offset ∨ j = offset + 1 ∨ j = offset + 2 ∨ j = offset + 3 := by
    omega
  all_goals omega

namespace Altered

variable {image altered : Array UInt8} {i : Nat}

/-- Fields beside the changed byte stay. -/
theorem field_eq (h : Altered image altered i) {w : Width} {offset : Nat}
    (hi : i < offset ∨ offset + w.bytes ≤ i) : field altered w offset = field image w offset := by
  have hwindow : Bytes.window altered offset w.bytes = Bytes.window image offset w.bytes := by
    refine List.map_congr_left fun k hk => ?_
    have hlt := List.mem_range.mp hk
    rw [Array.getD_eq_getD_getElem?, Array.getD_eq_getD_getElem?, h.rest _ (by omega)]
  rw [field, field, hwindow]

/-- The dword around the changed byte changes. -/
theorem dword_ne (h : Altered image altered i) {offset : Nat} (hlo : offset ≤ i)
    (hhi : i < offset + 4) : field altered .dword offset ≠ field image .dword offset := by
  intro heq
  have hbyte := getD_of_dword_eq heq hlo hhi
  apply h.differs
  by_cases hi : i < image.size
  · rw [Array.getD_eq_getD_getElem?, Array.getD_eq_getD_getElem?,
      Array.getElem?_eq_getElem hi, Array.getElem?_eq_getElem (h.size ▸ hi)] at hbyte
    rw [Array.getElem?_eq_getElem hi, Array.getElem?_eq_getElem (h.size ▸ hi)]
    exact congrArg some hbyte
  · have hsize := h.size
    rw [Array.getElem?_eq_none (Nat.not_lt.mp hi), Array.getElem?_eq_none (by omega)]

/-- A change behind the header leaves it as it is. -/
theorem header_eq (h : Altered image altered i) (hi : 36 ≤ i) : header altered = header image := by
  have hfield : ∀ (w : Width) (offset : Nat), offset + w.bytes ≤ 36 →
      field altered w offset = field image w offset :=
    fun w offset hle => h.field_eq (.inr (Nat.le_trans hle hi))
  unfold header
  rw [hfield .word 4 (by decide), hfield .byte 6 (by decide), hfield .byte 7 (by decide),
    hfield .dword 8 (by decide), hfield .dword 12 (by decide), hfield .dword 16 (by decide),
    hfield .dword 20 (by decide), hfield .dword 24 (by decide), hfield .dword 28 (by decide),
    hfield .dword 32 (by decide)]

/-! ## The sum of the dwords -/

theorem mem_summed {k : Nat} : k ∈ summed image ↔ k ≠ 8 ∧ k < image.size / 4 := by
  rw [summed, List.nodup_range.mem_erase_iff, List.mem_range]

theorem summed_eq (h : Altered image altered i) : summed altered = summed image := by
  rw [summed, summed, h.size]

/-- Dwords beside the changed byte stay. -/
theorem dword_eq (h : Altered image altered i) {k : Nat} (hk : k ≠ i / 4) :
    field altered .dword (4 * k) = field image .dword (4 * k) := by
  refine h.field_eq ?_
  show i < 4 * k ∨ 4 * k + 4 ≤ i
  omega

/-- A change in no dword that counts leaves the sum as it is. -/
theorem sum_eq (h : Altered image altered i) (hi : i / 4 ∉ summed image) :
    sum altered = sum image := by
  unfold sum
  rw [h.summed_eq]
  refine congrArg List.sum (List.map_congr_left fun k hk => ?_)
  rw [h.dword_eq fun heq => hi (heq ▸ hk)]

/-- **A change in a dword that counts changes the sum**, by less than `2 ^ 32`. -/
theorem sum_ne (h : Altered image altered i) (hi : i / 4 ∈ summed image) :
    sum altered % 0x100000000 ≠ sum image % 0x100000000 := by
  have hnodup : (summed image).Nodup := List.nodup_range.erase 8
  -- The dword that holds the byte, and the others, of which none changes.
  have hsplit : ∀ bytes : Array UInt8, summed bytes = summed image → sum bytes =
      (field bytes .dword (4 * (i / 4))).toNat +
        (((summed image).erase (i / 4)).map fun k => (field bytes .dword (4 * k)).toNat).sum := by
    intro bytes hbytes
    rw [sum, hbytes]
    exact (List.sum_map_erase _ hi).symm
  have hrest : (((summed image).erase (i / 4)).map fun k => (field altered .dword (4 * k)).toNat) =
      ((summed image).erase (i / 4)).map fun k => (field image .dword (4 * k)).toNat := by
    refine List.map_congr_left fun k hk => ?_
    rw [h.dword_eq (hnodup.mem_erase_iff.mp hk).1]
  have hne : (field altered .dword (4 * (i / 4))).toNat ≠ (field image .dword (4 * (i / 4))).toNat :=
    fun heq => h.dword_ne (by omega) (by omega) (UInt32.toNat_inj.mp heq)
  have hlt := (field image .dword (4 * (i / 4))).toNat_lt
  have hlt' := (field altered .dword (4 * (i / 4))).toNat_lt
  rw [hsplit altered h.summed_eq, hsplit image rfl, hrest]
  omega

/-! ## The checks -/

/-- **A change in a whole dword is seen.** It changes the checksum that the header gives, or the sum
of the dwords, but not both. -/
theorem not_wellFormed (h : Altered image altered i) (hw : WellFormed image)
    (hi : i < 4 * (image.size / 4)) : ¬ WellFormed altered := by
  intro hw'
  have hchecksum := hw.checksum
  have hchecksum' := hw'.checksum
  by_cases hindex : i / 4 = 8
  · have hsum : sum altered = sum image := h.sum_eq fun hmem => (mem_summed.mp hmem).1 hindex
    have hne : field altered .dword 32 ≠ field image .dword 32 := h.dword_ne (by omega) (by omega)
    rw [hsum, ← hchecksum] at hchecksum'
    exact hne (UInt32.toNat_inj.mp hchecksum')
  · have hsum := h.sum_ne (mem_summed.mpr ⟨hindex, by omega⟩)
    have heq : (header altered).checksum = (header image).checksum :=
      h.dword_eq (k := 8) (Ne.symm hindex)
    rw [heq, hchecksum] at hchecksum'
    exact hsum hchecksum'.symm

/-- **A change behind the last whole dword is not seen.** -/
theorem wellFormed (h : Altered image altered i) (hw : WellFormed image)
    (hi : 4 * (image.size / 4) ≤ i) : WellFormed altered ∧ header altered = header image := by
  have hsize := hw.size
  have hheader : header altered = header image := h.header_eq (by omega)
  have hsum : sum altered = sum image := h.sum_eq fun hmem => by
    have hlt := (mem_summed.mp hmem).2
    omega
  refine ⟨⟨?_, ?_, ?_, ?_, ?_, ?_⟩, hheader⟩
  · rw [h.size]
    exact hw.size
  · rw [h.field_eq (.inr (show 0 + 4 ≤ i by omega))]
    exact hw.magic
  · rw [hheader, h.size]
    exact hw.length
  · rw [hheader, hsum]
    exact hw.checksum
  · rw [hheader]
    exact hw.stack
  · rw [hheader]
    exact hw.room

end Altered

end Image

/-! ## Loading -/

namespace Story

variable {σ : Type}

/-- **A corrupted story is refused.** If one byte of a story is changed that lies in a whole dword,
the image is malformed, whatever the host and the limits. A change behind the last whole dword
passes all checks of the image. -/
theorem load_altered {image altered : Array UInt8} {i : Nat} {host : σ} {limits : Limits}
    {s : Story σ} (hload : load image host limits = .ok s) (h : Image.Altered image altered i) :
    (i < 4 * (image.size / 4) → ∀ (host' : σ) (limits' : Limits),
      ∃ cause, load altered host' limits' = .error ⟨.malformedImage cause, #[]⟩) ∧
    (4 * (image.size / 4) ≤ i → layOut altered = .ok (s.header, Image.memory altered)) := by
  obtain ⟨hw, hloads⟩ := Loads.of_load hload
  refine ⟨fun hi host' limits' => load_malformed (h.not_wellFormed hw hi) host' limits', fun hi => ?_⟩
  obtain ⟨hw', hheader⟩ := h.wellFormed hw hi
  obtain ⟨-, hlayOut⟩ | ⟨hnot, -⟩ := layOut_eq altered
  · rw [hlayOut, hheader, hloads.header]
  · exact absurd hw' hnot

end Story

theorem Image.Altered.set {image : Array UInt8} {i : Nat} {b : UInt8} (hi : i < image.size)
    (hb : image[i]? ≠ some b) : Image.Altered image (image.setIfInBounds i b) i where
  size := Array.size_setIfInBounds
  differs := by
    rw [Array.getElem?_setIfInBounds_self_of_lt hi]
    exact Ne.symm hb
  rest j hj := Array.getElem?_setIfInBounds_ne (Ne.symm hj)

theorem Story.load_altered_touching :
    ∃ s : Story Silent, load touching {} {} = .ok s ∧
      ∃ cause, load (touching.setIfInBounds 0x30 0xC1) ({} : Silent) {} =
        .error ⟨.malformedImage cause, #[]⟩ := by
  obtain ⟨s, hload, -⟩ := exists_loaded touching ({} : Silent) {} (fun _ => True) (by decide +kernel)
  exact ⟨s, hload, (load_altered hload (.set (by decide) (by decide))).1 (by decide) {} {}⟩

/-- A story of 41 bytes. Its routine has no instructions, and its last byte is in no dword. -/
def trailing : Array UInt8 :=
  #[0x47, 0x6C, 0x75, 0x6C, 0x00, 0x03, 0x01, 0x02, 0x00, 0x00, 0x00, 0x28, 0x00, 0x00, 0x00, 0x29,
    0x00, 0x00, 0x00, 0x29, 0x00, 0x00, 0x01, 0x00, 0x00, 0x00, 0x00, 0x24, 0x00, 0x00, 0x00, 0x00,
    0x07, 0x6F, 0x78, 0x8B, 0xC0, 0x00, 0x00, 0x7F, 0x00]

/-- Not every changed byte is seen. -/
theorem Story.load_altered_trailing :
    Image.Altered trailing (trailing.setIfInBounds 40 1) 40 ∧
    (∃ s : Story Silent, load trailing {} {} = .ok s) ∧
    ∃ s : Story Silent, load (trailing.setIfInBounds 40 1) {} {} = .ok s := by
  obtain ⟨s, hload, -⟩ := exists_loaded trailing ({} : Silent) {} (fun _ => True) (by decide +kernel)
  obtain ⟨s', hload', -⟩ := exists_loaded (trailing.setIfInBounds 40 1) ({} : Silent) {}
    (fun _ => True) (by decide +kernel)
  exact ⟨.set (by decide) (by decide), ⟨s, hload⟩, ⟨s', hload'⟩⟩

end StoryVM
