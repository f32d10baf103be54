import StoryVM.Proofs.ReadOnly
import StoryVM.Proofs.Storage

/-! # Guest memory as a list of bytes

Guest memory is a list of bytes with protected regions. An access is refused if it does not lie
inside the list, and only then is a write refused for a region that it meets. Numbers are read and
written by their place values, so that accesses of different widths at overlapping addresses agree
with one another: all of them are about the same bytes.

* `Store.perform`: what an operation does to a list of bytes, and `Memory.inTurn_store`: operations
  on memory, one after the other, do that.
* `Region.meets_iff`: a region is in the way of an access if they have a byte in common. So is an
  empty region that starts strictly inside the access, although it has no bytes at all.
* `Memory.write_refused_iff`: which writes are refused for a protected region. -/

namespace StoryVM

/-! ## Operations -/

namespace Memory

/-- **The operations of guest memory.** -/
inductive Operation where
  /-- Read a value. -/
  | read (w : Width) (address : UInt32)
  /-- Write the low bytes of a value. -/
  | write (w : Width) (address value : UInt32)
  /-- Grow memory. -/
  | expand (newSize : UInt32)
  /-- Protect a region. -/
  | protect (region : Region)

/-- **Performs an operation**: the answer, and memory after it. -/
def perform (m : Memory) : Operation → Except Fault (Option UInt32) × Memory
  | .read w address => ((m.read w address).map some, m)
  | .write w address v => answered m (m.write w address v)
  | .expand newSize => answered m (m.expand newSize)
  | .protect region => (.ok none, m.protect region)

end Memory

/-- **A list of bytes with protected regions.** -/
structure Store where
  bytes : List UInt8
  regions : List Region

/-- What memory holds. -/
def Memory.store (m : Memory) : Store := ⟨m.bytes.toList, m.regions⟩

/-- **What an operation does to a list of bytes**: its answer, and the list after it. -/
def Store.perform (s : Store) : Memory.Operation → Except Fault (Option UInt32) × Store
  | .read w address =>
    if s.bytes.length < address.toNat + w.bytes then
      (.error (.outOfRange address w.bytes s.bytes.length), s)
    else
      (.ok (some (.ofNat (Bytes.number ((s.bytes.drop address.toNat).take w.bytes)))), s)
  | .write w address v =>
    if s.bytes.length < address.toNat + w.bytes then
      (.error (.outOfRange address w.bytes s.bytes.length), s)
    else
      match s.regions.find? (·.meets address w.bytes) with
      | some r => (.error (.readOnly address w.bytes r.start r.length), s)
      | none =>
        (.ok none, { s with
          bytes := s.bytes.take address.toNat ++ Bytes.digits w.bytes v.toNat ++
            s.bytes.drop (address.toNat + w.bytes) })
  | .expand newSize =>
    if newSize.toNat < s.bytes.length then
      (.error (.memoryShrinks newSize.toNat s.bytes.length), s)
    else
      (.ok none, { s with
        bytes := s.bytes ++ List.replicate (newSize.toNat - s.bytes.length) 0 })
  | .protect region => (.ok none, { s with regions := s.regions ++ [region] })

namespace Memory

theorem length_store (m : Memory) : m.store.bytes.length = m.size := Array.length_toList

theorem store_read (m : Memory) (w : Width) (address : UInt32) :
    m.store.perform (.read w address) = (m.perform (.read w address)).map id store := by
  simp only [Store.perform, perform, read, inRange, length_store, decide_eq_true_eq]
  split
  · next hlt =>
    rw [if_neg (Nat.not_le.mpr hlt)]
    rfl
  · next hle =>
    have hrange : address.toNat + w.bytes ≤ m.size := Nat.not_lt.mp hle
    rw [if_pos hrange, Bytes.window_eq hrange, Bytes.decode_eq_number]
    rfl

theorem store_write (m : Memory) (w : Width) (address v : UInt32) :
    m.store.perform (.write w address v) = (m.perform (.write w address v)).map id store := by
  simp only [Store.perform, perform, write, inRange, length_store, decide_eq_true_eq]
  split
  · next hlt =>
    rw [if_neg (Nat.not_le.mpr hlt)]
    rfl
  · next hle =>
    have hrange : address.toNat + w.bytes ≤ m.size := Nat.not_lt.mp hle
    have hfits : address.toNat + (Bytes.digits w.bytes v.toNat).length ≤ m.bytes.size := by
      rwa [Bytes.length_digits]
    have hregions : m.store.regions = m.regions := rfl
    rw [if_pos hrange, hregions]
    cases m.regions.find? (·.meets address w.bytes) with
    | some r => rfl
    | none =>
      simp only [answered, store, Prod.map_apply, id_eq, Bytes.encode_eq_digits,
        Bytes.toList_splice hfits, Bytes.length_digits]

theorem store_expand (m : Memory) (newSize : UInt32) :
    m.store.perform (.expand newSize) = (m.perform (.expand newSize)).map id store := by
  simp only [Store.perform, perform, expand, length_store]
  split
  · rfl
  · simp [answered, store]

/-- **An operation on memory** does to what it holds what it does to a list of bytes. -/
theorem store_perform (m : Memory) (op : Operation) :
    m.store.perform op = (m.perform op).map id store := by
  cases op with
  | read w address => exact m.store_read w address
  | write w address v => exact m.store_write w address v
  | expand newSize => exact m.store_expand newSize
  | protect region => rfl

/-- **Memory is a big-endian array of bytes.** Operations on it, one after the other, are answered
as they are for the list of bytes that it holds, and leave it holding what the list has become. -/
theorem inTurn_store (m : Memory) (ops : List Operation) :
    ∃ answers m', inTurn perform m ops = (answers, m') ∧
      inTurn Store.perform m.store ops = (answers, m'.store) :=
  ⟨_, _, rfl, inTurn_view store store_perform m ops⟩

end Memory

/-! ## Write protection -/

/-- **What a region is in the way of.** -/
theorem Region.meets_iff {r : Region} {address : UInt32} {size : Nat} (hsize : 0 < size) :
    r.meets address size = true ↔
      (∃ i, (address.toNat ≤ i ∧ i < address.toNat + size) ∧
        r.start.toNat ≤ i ∧ i < r.start.toNat + r.length.toNat) ∨
      r.length = 0 ∧ address.toNat < r.start.toNat ∧ r.start.toNat < address.toNat + size := by
  simp only [meets, Bool.and_eq_true, decide_eq_true_eq]
  constructor
  · rintro ⟨hend, hstart⟩
    by_cases hempty : r.length = 0
    · rw [hempty] at hend
      exact .inr ⟨hempty, hend, hstart⟩
    · have hlength : 0 < r.length.toNat := by
        rw [← UInt32.toNat_inj] at hempty
        exact Nat.pos_of_ne_zero hempty
      exact .inl ⟨max address.toNat r.start.toNat, by omega, by omega⟩
  · rintro (⟨i, haddress, hregion⟩ | ⟨hempty, hinside⟩)
    · omega
    · rw [hempty]
      exact hinside

namespace Memory

variable {m : Memory} {w : Width} {address v : UInt32}

/-- A write inside memory goes through if no region is in its way. -/
theorem write_of_inRange (h : address.toNat + w.bytes ≤ m.size) :
    (∃ m', m.write w address v = .ok m') ∧
        (∀ r ∈ m.regions, ¬ r.meets address w.bytes = true) ∨
      ∃ r ∈ m.regions, r.meets address w.bytes = true ∧
        m.write w address v = .error (.readOnly address w.bytes r.start r.length) := by
  unfold write
  rw [inRange, if_pos (by simpa using h)]
  split
  · next r hfind =>
    have hmeets := List.find?_some hfind
    exact .inr ⟨r, List.mem_of_find?_eq_some hfind, hmeets, rfl⟩
  · next hfind => exact .inl ⟨⟨_, rfl⟩, List.find?_eq_none.mp hfind⟩

/-- **A write is refused for the bytes that it would touch**: inside memory it goes through if none
of them is protected and no empty region starts strictly between them, and it is refused for a
protected region otherwise. -/
theorem write_refused_iff (h : address.toNat + w.bytes ≤ m.size) :
    ((∃ m', m.write w address v = .ok m') ↔
      (∀ i, address.toNat ≤ i → i < address.toNat + w.bytes → ¬ m.Protected i) ∧
      ∀ r ∈ m.regions, r.length = 0 →
        ¬ (address.toNat < r.start.toNat ∧ r.start.toNat < address.toNat + w.bytes)) ∧
    ((¬ ∃ m', m.write w address v = .ok m') →
      ∃ r ∈ m.regions,
        m.write w address v = .error (.readOnly address w.bytes r.start r.length)) := by
  have hfree : (∀ r ∈ m.regions, ¬ r.meets address w.bytes = true) ↔
      (∀ i, address.toNat ≤ i → i < address.toNat + w.bytes → ¬ m.Protected i) ∧
      ∀ r ∈ m.regions, r.length = 0 →
        ¬ (address.toNat < r.start.toNat ∧ r.start.toNat < address.toNat + w.bytes) := by
    simp only [Region.meets_iff w.bytes_pos, Protected]
    constructor
    · intro hfree
      refine ⟨fun i hlo hhi ⟨r, hr, hregion⟩ => ?_, fun r hr hempty hinside => ?_⟩
      · exact hfree r hr (.inl ⟨i, ⟨hlo, hhi⟩, hregion⟩)
      · exact hfree r hr (.inr ⟨hempty, hinside⟩)
    · rintro ⟨hbytes, hempty⟩ r hr (⟨i, ⟨hlo, hhi⟩, hregion⟩ | ⟨hzero, hinside⟩)
      · exact hbytes i hlo hhi ⟨r, hr, hregion⟩
      · exact hempty r hr hzero hinside
  rw [← hfree]
  rcases write_of_inRange (v := v) h with ⟨hok, hnone⟩ | ⟨r, hr, hmeets, hrefused⟩
  · exact ⟨⟨fun _ => hnone, fun _ => hok⟩, fun hrefused => absurd hok hrefused⟩
  · refine ⟨⟨?_, fun hnone => absurd hmeets (hnone r hr)⟩, fun _ => ⟨r, hr, hrefused⟩⟩
    rintro ⟨m', hm'⟩
    rw [hrefused] at hm'
    cases hm'

/-- Two bytes of a memory of eight are protected. -/
def halfOpen : Memory := { bytes := Array.replicate 8 0, regions := [⟨4, 2⟩] }

theorem write_refused_iff_halfOpen :
    6 + 2 ≤ halfOpen.size ∧ (∃ m', halfOpen.write .word 6 1 = .ok m') ∧
      ∃ r ∈ halfOpen.regions,
        halfOpen.write .dword 3 1 = .error (.readOnly 3 4 r.start r.length) := by
  refine ⟨by decide, (write_refused_iff (by decide)).1.mpr ⟨?_, by decide⟩,
    (write_refused_iff (by decide)).2 fun hok => ?_⟩
  · rintro i hlo - ⟨r, hr, hregion⟩
    obtain rfl := List.mem_singleton.mp hr
    exact absurd hregion.2 (Nat.not_lt.mpr hlo)
  · have hbytes := ((write_refused_iff (by decide)).1.mp hok).1
    exact hbytes 4 (by decide) (by decide) ⟨⟨4, 2⟩, List.mem_singleton_self _, by decide, by decide⟩

/-- A memory whose only protected region is empty. -/
def emptyProtected : Memory := { bytes := #[0, 0], regions := [⟨1, 0⟩] }

/-- **A write can be refused although none of its bytes is protected**: the empty region starts
strictly between them. -/
theorem write_refused_unprotected :
    0 + 2 ≤ emptyProtected.size ∧ (∀ i, ¬ emptyProtected.Protected i) ∧
      emptyProtected.write .word 0 0x102 = .error (.readOnly 0 2 1 0) := by
  refine ⟨by decide, ?_, by decide⟩
  rintro i ⟨r, hr, hlo, hhi⟩
  obtain rfl := List.mem_singleton.mp hr
  exact absurd hlo (Nat.not_le.mpr hhi)

end Memory

end StoryVM
