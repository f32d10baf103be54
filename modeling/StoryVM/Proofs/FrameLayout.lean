import Mathlib.Algebra.GroupWithZero.Nat
import StoryVM.Proofs.Format

/-! # Where locals stand in a frame

Operands name a local by its frame address, so two locals that shared an address would be one. The
layout of the groups that a routine declares keeps them apart (`locals_apart`): each local stands at
a multiple of its width, behind all that were declared before it.

* `LocalGroup.Stand`: groups at given starts, each behind the one before it with less padding than
  its width. `layout_eq_placed` says that the layout places groups like that.
* `LocalGroup.wrappingLayout`: the layout in 32-bit arithmetic, one local after the other, with sums
  that wrap. It is the layout with its addresses cut to 32 bits (`wrappingLayout_eq`).
* `LocalGroup.checkedLayout`: the same without an answer if a sum leaves 32 bits. No sum does, as
  long as the frame ends below `2 ^ 32` (`checkedLayout_eq`).
* `LocalGroup.extent`: where a frame ends. Two bytes of memory declare at most 1023 bytes of it
  (`extent_le`), which bounds the frames of a small memory. -/

namespace StoryVM

/-! ## Alignment -/

namespace Width

theorem le_align (w : Width) (address : Nat) : address ≤ w.align address := by
  unfold align
  split
  · exact Nat.le_refl _
  · exact Nat.le_add_right _ _

theorem align_lt (w : Width) (address : Nat) : w.align address < address + w.bytes := by
  have hpos := w.bytes_pos
  have hmod := Nat.mod_lt address hpos
  unfold align
  split <;> omega

theorem bytes_dvd_align (w : Width) (address : Nat) : w.bytes ∣ w.align address := by
  unfold align
  split
  · next h => exact Nat.dvd_of_mod_eq_zero h
  · have hmod := Nat.mod_lt address w.bytes_pos
    have hdiv := Nat.div_add_mod address w.bytes
    have heq : address + (w.bytes - address % w.bytes) = w.bytes * (address / w.bytes + 1) := by
      rw [Nat.mul_add, Nat.mul_one]
      omega
    exact ⟨_, heq⟩

end Width

namespace LocalGroup

/-! ## Groups at their starts -/

/-- **Groups stand at the given starts** from an address on: each at a multiple of its width, behind
the one before it, with less padding than its width in between. A group without locals is padded
like any other. -/
inductive Stand : Nat → List LocalGroup → List Nat → Prop
  | nil (address : Nat) : Stand address [] []
  | cons {address start : Nat} {g : LocalGroup} {groups : List LocalGroup} {starts : List Nat}
    (behind : address ≤ start) (padding : start - address < g.width.bytes)
    (aligned : g.width.bytes ∣ start)
    (rest : Stand (start + g.count * g.width.bytes) groups starts) :
    Stand address (g :: groups) (start :: starts)

/-- The locals of groups that stand at the given starts: those of a group are adjacent. -/
def placed (groups : List LocalGroup) (starts : List Nat) : List Placement :=
  (groups.zip starts).flatMap fun q =>
    (List.range q.1.count).map fun k => ⟨q.2 + k * q.1.width.bytes, q.1.width⟩

/-- Where the groups end. -/
def extent (address : Nat) : List LocalGroup → Nat
  | [] => address
  | g :: rest => extent (g.width.align address + g.count * g.width.bytes) rest

/-- **The layout places groups at their starts.** -/
theorem layout_eq_placed (address : Nat) (groups : List LocalGroup) :
    ∃ starts, Stand address groups starts ∧ layout address groups = placed groups starts := by
  induction groups generalizing address with
  | nil => exact ⟨[], .nil address, rfl⟩
  | cons g rest ih =>
    obtain ⟨starts, hstand, hlayout⟩ := ih (g.width.align address + g.count * g.width.bytes)
    have hle := g.width.le_align address
    have hlt := g.width.align_lt address
    refine ⟨g.width.align address :: starts,
      .cons hle (by omega) (g.width.bytes_dvd_align address) hstand, ?_⟩
    rw [layout, hlayout]
    rfl

variable {address : Nat} {groups : List LocalGroup}

theorem mem_placements {g : LocalGroup} {start : Nat} {p : Placement} :
    p ∈ g.placements start ↔
      p.width = g.width ∧ ∃ k < g.count, p.frameAddress = start + k * g.width.bytes := by
  obtain ⟨a, w⟩ := p
  simp only [placements, List.mem_map, List.mem_range, Placement.mk.injEq]
  constructor
  · rintro ⟨k, hk, rfl, rfl⟩
    exact ⟨rfl, k, hk, rfl⟩
  · rintro ⟨rfl, k, hk, rfl⟩
    exact ⟨k, hk, rfl, rfl⟩

/-- The end of a local lies at or before the end of its group. -/
theorem end_le_of_mem_placements {g : LocalGroup} {start : Nat} {p : Placement}
    (h : p ∈ g.placements start) :
    start ≤ p.frameAddress ∧ p.frameAddress + p.width.bytes ≤ start + g.count * g.width.bytes := by
  obtain ⟨hwidth, k, hk, haddress⟩ := mem_placements.mp h
  have hmul : (k + 1) * g.width.bytes ≤ g.count * g.width.bytes := Nat.mul_le_mul_right _ hk
  rw [Nat.add_mul, Nat.one_mul] at hmul
  rw [hwidth, haddress]
  omega

theorem le_extent (address : Nat) (groups : List LocalGroup) : address ≤ extent address groups := by
  induction groups generalizing address with
  | nil => exact Nat.le_refl address
  | cons g rest ih =>
    have hle := g.width.le_align address
    have hrest := ih (g.width.align address + g.count * g.width.bytes)
    rw [extent]
    omega

/-- **A local stands between the two ends of the frame**, at a multiple of its width. -/
theorem bounds_of_mem_layout {p : Placement} (h : p ∈ layout address groups) :
    address ≤ p.frameAddress ∧ p.frameAddress + p.width.bytes ≤ extent address groups ∧
      p.width.bytes ∣ p.frameAddress := by
  induction groups generalizing address with
  | nil => cases h
  | cons g rest ih =>
    have hle := g.width.le_align address
    have hextent := le_extent (g.width.align address + g.count * g.width.bytes) rest
    rw [extent]
    rcases List.mem_append.mp h with h | h
    · obtain ⟨hstart, hend⟩ := end_le_of_mem_placements h
      obtain ⟨hwidth, k, -, haddress⟩ := mem_placements.mp h
      refine ⟨by omega, by omega, ?_⟩
      rw [hwidth, haddress]
      exact Nat.dvd_add (g.width.bytes_dvd_align address) (Nat.dvd_mul_left _ _)
    · obtain ⟨hstart, hend, hdvd⟩ := ih h
      exact ⟨by omega, hend, hdvd⟩

/-- The first local ends where the second one starts, or before. -/
def Precedes (p q : Placement) : Prop := p.frameAddress + p.width.bytes ≤ q.frameAddress

theorem pairwise_placements (g : LocalGroup) (start : Nat) :
    (g.placements start).Pairwise Precedes := by
  refine List.pairwise_map.mpr (List.pairwise_lt_range.imp fun {j k} hjk => ?_)
  have hmul : (j + 1) * g.width.bytes ≤ k * g.width.bytes := Nat.mul_le_mul_right _ hjk
  rw [Nat.add_mul, Nat.one_mul] at hmul
  show start + j * g.width.bytes + g.width.bytes ≤ start + k * g.width.bytes
  omega

/-- **Locals stand one behind the other**, in the order of declaration. -/
theorem pairwise_layout (address : Nat) (groups : List LocalGroup) :
    (layout address groups).Pairwise Precedes := by
  induction groups generalizing address with
  | nil => exact List.Pairwise.nil
  | cons g rest ih =>
    refine List.pairwise_append.mpr ⟨g.pairwise_placements _, ih _, fun p hp q hq => ?_⟩
    have hend := (end_le_of_mem_placements hp).2
    have hstart := (bounds_of_mem_layout hq).1
    exact Nat.le_trans hend hstart

theorem length_layout (address : Nat) (groups : List LocalGroup) :
    (layout address groups).length = (groups.map (·.count)).sum := by
  induction groups generalizing address with
  | nil => rfl
  | cons g rest ih =>
    rw [layout, List.length_append, ih, List.map_cons, List.sum_cons, placements, List.length_map,
      List.length_range]

/-! ## The layout in 32 bits -/

/-- The next multiple of a width from an address on. The sum wraps. -/
def wrappingAlign (w : Width) (address : UInt32) : UInt32 :=
  let width := UInt32.ofNat w.bytes
  if address % width = 0 then address else address + (width - address % width)

/-- The addresses of a number of locals, one after the other, and the address after them. Sums
wrap. -/
def wrappingPlacements (w : Width) : (count : Nat) → UInt32 → List (UInt32 × Width) × UInt32
  | 0, address => ([], address)
  | count + 1, address =>
    let (rest, last) := wrappingPlacements w count (address + UInt32.ofNat w.bytes)
    ((address, w) :: rest, last)

/-- **The layout in 32-bit arithmetic**, in which sums wrap. -/
def wrappingLayout (address : UInt32) : List LocalGroup → List (UInt32 × Width)
  | [] => []
  | g :: rest =>
    let (places, next) := wrappingPlacements g.width g.count (wrappingAlign g.width address)
    places ++ wrappingLayout next rest

/-- A placement in 32 bits. -/
def narrow (p : Placement) : UInt32 × Width := (UInt32.ofNat p.frameAddress, p.width)

/-- A width divides `2 ^ 32`, so the remainder is that of the whole address. -/
theorem toNat_mod_bytes (w : Width) (address : Nat) :
    (UInt32.ofNat address % UInt32.ofNat w.bytes).toNat = address % w.bytes := by
  have hdvd : w.bytes ∣ 2 ^ 32 := by cases w <;> decide
  have hbytes : (UInt32.ofNat w.bytes).toNat = w.bytes := by cases w <;> rfl
  rw [UInt32.toNat_mod, hbytes, UInt32.toNat_ofNat', Nat.mod_mod_of_dvd _ hdvd]

theorem wrappingAlign_eq (w : Width) (address : Nat) :
    wrappingAlign w (UInt32.ofNat address) = UInt32.ofNat (w.align address) := by
  have hmod := toNat_mod_bytes w address
  have hlt := Nat.mod_lt address w.bytes_pos
  have hrem : UInt32.ofNat address % UInt32.ofNat w.bytes = UInt32.ofNat (address % w.bytes) := by
    rw [← hmod, UInt32.ofNat_toNat]
  have hzero : UInt32.ofNat (address % w.bytes) = 0 ↔ address % w.bytes = 0 := by
    rw [← hrem, ← UInt32.toNat_inj, hmod]
    rfl
  unfold Width.align
  dsimp only [wrappingAlign]
  rw [hrem]
  by_cases hz : address % w.bytes = 0
  · rw [if_pos (hzero.mpr hz), if_pos hz]
  · rw [if_neg (mt hzero.mp hz), if_neg hz, ← UInt32.ofNat_sub hlt.le, UInt32.ofNat_add]

theorem wrappingPlacements_eq (w : Width) (count start : Nat) :
    wrappingPlacements w count (UInt32.ofNat start) =
      ((placements ⟨w, count⟩ start).map narrow, UInt32.ofNat (start + count * w.bytes)) := by
  induction count generalizing start with
  | zero => simp [wrappingPlacements, placements]
  | succ count ih =>
    have hnext : start + w.bytes + count * w.bytes = start + (count + 1) * w.bytes := by
      rw [Nat.add_mul, Nat.one_mul]
      omega
    have hplaces : placements ⟨w, count + 1⟩ start =
        ⟨start, w⟩ :: placements ⟨w, count⟩ (start + w.bytes) := by
      simp only [placements, List.range_succ_eq_map, List.map_cons, List.map_map, Nat.zero_mul,
        Nat.add_zero]
      refine congrArg _ (List.map_congr_left fun k _ => ?_)
      simp only [Function.comp, Placement.mk.injEq, and_true, Nat.succ_eq_add_one, Nat.add_mul,
        Nat.one_mul]
      omega
    rw [wrappingPlacements, ← UInt32.ofNat_add, ih, hplaces, hnext]
    rfl

/-- **The layout with sums that wrap** is the layout, with each address cut to 32 bits at the end. -/
theorem wrappingLayout_eq (address : Nat) (groups : List LocalGroup) :
    wrappingLayout (UInt32.ofNat address) groups = (layout address groups).map narrow := by
  induction groups generalizing address with
  | nil => rfl
  | cons g rest ih =>
    rw [wrappingLayout, wrappingAlign_eq, wrappingPlacements_eq, layout, List.map_append, ← ih]

/-- The sum of two numbers of 32 bits, if it has no more than that. -/
def checkedAdd (a b : UInt32) : Option UInt32 :=
  if a.toNat + b.toNat < 0x100000000 then some (a + b) else none

/-- The next multiple of a width from an address on. -/
def checkedAlign (w : Width) (address : UInt32) : Option UInt32 :=
  let width := UInt32.ofNat w.bytes
  if address % width = 0 then some address else checkedAdd address (width - address % width)

/-- The addresses of a number of locals, one after the other, and the address after them. -/
def checkedPlacements (w : Width) :
    (count : Nat) → UInt32 → Option (List (UInt32 × Width) × UInt32)
  | 0, address => some ([], address)
  | count + 1, address => do
    let next ← checkedAdd address (UInt32.ofNat w.bytes)
    let (rest, last) ← checkedPlacements w count next
    return ((address, w) :: rest, last)

/-- **The layout in 32-bit arithmetic.** It has no answer if a sum leaves 32 bits. -/
def checkedLayout (address : UInt32) : List LocalGroup → Option (List (UInt32 × Width))
  | [] => some []
  | g :: rest => do
    let start ← checkedAlign g.width address
    let (places, next) ← checkedPlacements g.width g.count start
    return places ++ (← checkedLayout next rest)

/-- A sum that stays below `2 ^ 32` does not wrap. -/
theorem checkedAdd_eq {a b : Nat} (h : a + b < 0x100000000) :
    checkedAdd (UInt32.ofNat a) (UInt32.ofNat b) = some (UInt32.ofNat a + UInt32.ofNat b) := by
  have ha : (UInt32.ofNat a).toNat = a :=
    UInt32.toNat_ofNat_of_lt' (Nat.lt_of_le_of_lt (Nat.le_add_right a b) h)
  have hb : (UInt32.ofNat b).toNat = b :=
    UInt32.toNat_ofNat_of_lt' (Nat.lt_of_le_of_lt (Nat.le_add_left b a) h)
  rw [checkedAdd, ha, hb, if_pos h]

theorem checkedAlign_eq {w : Width} {address : Nat} (h : w.align address < 0x100000000) :
    checkedAlign w (UInt32.ofNat address) = some (wrappingAlign w (UInt32.ofNat address)) := by
  have hlt := Nat.mod_lt address w.bytes_pos
  have hmod := toNat_mod_bytes w address
  have hsub : UInt32.ofNat w.bytes - UInt32.ofNat address % UInt32.ofNat w.bytes =
      UInt32.ofNat (w.bytes - address % w.bytes) := by
    rw [UInt32.ofNat_sub hlt.le, ← hmod, UInt32.ofNat_toNat]
  dsimp only [checkedAlign, wrappingAlign]
  split
  · rfl
  · next hz =>
    have hne : ¬ address % w.bytes = 0 := by
      rwa [← UInt32.toNat_inj, hmod] at hz
    rw [Width.align, if_neg hne] at h
    rw [hsub]
    exact checkedAdd_eq h

theorem checkedPlacements_eq {w : Width} {count start : Nat}
    (h : start + count * w.bytes < 0x100000000) :
    checkedPlacements w count (UInt32.ofNat start) =
      some (wrappingPlacements w count (UInt32.ofNat start)) := by
  induction count generalizing start with
  | zero => rfl
  | succ count ih =>
    rw [Nat.add_mul, Nat.one_mul] at h
    have hroom : start + w.bytes + count * w.bytes < 0x100000000 := by omega
    have hrest := ih hroom
    rw [UInt32.ofNat_add] at hrest
    rw [checkedPlacements, checkedAdd_eq (by omega)]
    simp only [Option.bind_eq_bind, Option.bind_some, hrest]
    rfl

/-- **No sum of the layout leaves 32 bits** if the frame ends below `2 ^ 32`. -/
theorem checkedLayout_eq (h : extent address groups < 0x100000000) :
    checkedLayout (UInt32.ofNat address) groups = some ((layout address groups).map narrow) := by
  rw [← wrappingLayout_eq]
  induction groups generalizing address with
  | nil => rfl
  | cons g rest ih =>
    rw [extent] at h
    have hnext := le_extent (g.width.align address + g.count * g.width.bytes) rest
    have hroom : g.width.align address + g.count * g.width.bytes < 0x100000000 := by omega
    have hplaces := checkedPlacements_eq hroom
    rw [checkedLayout, checkedAlign_eq (by omega), wrappingLayout, wrappingAlign_eq]
    simp only [Option.bind_eq_bind, Option.bind_some, hplaces, wrappingPlacements_eq, ih h]
    rfl

/-! ## The size of a frame -/

/-- A group takes at most 1020 bytes, and 3 bytes of padding. -/
theorem extent_le (address : Nat) (h : ∀ g ∈ groups, g.count ≤ 255) :
    extent address groups ≤ address + 1023 * groups.length := by
  induction groups generalizing address with
  | nil => exact Nat.le_refl _
  | cons g rest ih =>
    have hcount := h g List.mem_cons_self
    have hwidth := g.width.bytes_le_four
    have halign := g.width.align_lt address
    have hbytes : g.count * g.width.bytes ≤ 255 * 4 := Nat.mul_le_mul hcount hwidth
    have hrest := ih (g.width.align address + g.count * g.width.bytes)
      fun g' hg' => h g' (List.mem_cons_of_mem g hg')
    rw [extent, List.length_cons]
    omega

end LocalGroup

/-- The groups of locals take two bytes each, and two more end them. -/
theorem GroupBytes.length_eq {bs : List UInt8} {groups : List LocalGroup}
    (h : GroupBytes bs groups) :
    bs.length = 2 * groups.length + 2 ∧ ∀ g ∈ groups, g.count ≤ 255 := by
  induction h with
  | done => exact ⟨rfl, by simp⟩
  | @cons size count w bs groups hw h ih =>
    obtain ⟨hlength, hcounts⟩ := ih
    refine ⟨by simp only [List.length_cons]; omega, fun g hg => ?_⟩
    rcases List.mem_cons.mp hg with rfl | hg
    · exact Nat.le_of_lt_succ count.toNat_lt
    · exact hcounts g hg

/-- **The frame of a routine in a small memory ends below `2 ^ 32`.** -/
theorem Cursor.extent_of_localGroups {c rest : Cursor} (hm : c.memory.size < 0x800000)
    {routine : UInt32} {fuel : Nat} {groups : List LocalGroup}
    (h : c.localGroups routine fuel = .ok (groups, rest)) :
    LocalGroup.extent 0 groups < 0x100000000 := by
  obtain ⟨bs, hmoves, hbs⟩ := groupBytes_of_localGroups (Nat.le_of_lt (by omega)) h
  obtain ⟨hlength, hcounts⟩ := hbs.length_eq
  have hrest := congrArg List.length hmoves.rest
  rw [length_rest, List.length_append] at hrest
  have hextent := LocalGroup.extent_le 0 hcounts
  omega

/-! ## The locals of a scope -/

/-- What the scope knows after the declaration of a local at an address that it did not know. -/
theorem Binder.locals_declare {b : Binder} {p : Placement} (hlt : p.frameAddress < 0x100000000)
    (hnew : b.scope.locals[UInt32.ofNat p.frameAddress]? = none) :
    (b.declare p).scope.locals.size = b.scope.locals.size + 1 ∧
      ∀ (a : UInt32) (v : Local), (b.declare p).scope.locals[a]? = some v ↔
        b.scope.locals[a]? = some v ∨
          a.toNat = p.frameAddress ∧ v = ⟨b.draft.locals.size, p.width⟩ := by
  have haddress : (UInt32.ofNat p.frameAddress).toNat = p.frameAddress :=
    UInt32.toNat_ofNat_of_lt' hlt
  simp only [declare, Draft.declareLocal]
  refine ⟨?_, fun a v => ?_⟩
  · have hmem : b.scope.locals.contains (UInt32.ofNat p.frameAddress) = false := by
      rw [Std.TreeMap.contains_eq_isSome_getElem?, hnew]
      rfl
    rw [Std.TreeMap.size_insert, hmem, if_neg (by decide)]
  · rw [Std.TreeMap.getElem?_insert]
    split
    · next heq =>
      obtain rfl : UInt32.ofNat p.frameAddress = a := Std.LawfulEqCmp.eq_of_compare heq
      rw [hnew]
      simp [haddress, eq_comm]
    · next hne =>
      refine ⟨Or.inl, fun h => h.resolve_right ?_⟩
      rintro ⟨ha, -⟩
      obtain rfl : UInt32.ofNat p.frameAddress = a := UInt32.toNat_inj.mp (haddress.trans ha.symm)
      exact hne Std.ReflCmp.compare_self

/-- **The scope knows each local under its own address**, if no two have the same. -/
theorem Binder.locals_foldl_declare {b : Binder} (hfresh : b.Fresh) (hlocals : b.draft.locals = #[])
    (hscope : b.scope.locals = ∅) (ps : List Placement)
    (hlt : ∀ p ∈ ps, p.frameAddress < 0x100000000) (hnodup : (ps.map (·.frameAddress)).Nodup) :
    (ps.foldl declare b).scope.locals.size = ps.length ∧
      ∀ (a : UInt32) (v : Local), (ps.foldl declare b).scope.locals[a]? = some v ↔
        ∃ p, ps[v.index]? = some p ∧ a.toNat = p.frameAddress ∧ v.width = p.width := by
  induction ps using List.reverseRecOn with
  | nil => exact ⟨by rw [List.foldl_nil, hscope]; rfl, by simp [hscope]⟩
  | append_singleton ps p ih =>
    obtain ⟨hp, hdistinct⟩ : (ps.map (·.frameAddress)).Nodup ∧ ∀ q ∈ ps,
        q.frameAddress ≠ p.frameAddress := by
      rw [List.map_append, List.nodup_append] at hnodup
      refine ⟨hnodup.1, fun q hq => hnodup.2.2 _ (List.mem_map_of_mem hq) _ ?_⟩
      exact List.mem_singleton_self _
    obtain ⟨hsize, hget⟩ := ih (fun q hq => hlt q (List.mem_append_left _ hq)) hp
    have hbound : p.frameAddress < 0x100000000 :=
      hlt p (List.mem_append_right _ (List.mem_singleton_self p))
    have hcount : (ps.foldl declare b).draft.locals.size = ps.length := by
      rw [← Array.length_toList, (foldl_declare hfresh hlocals ps).2.2, List.length_mapIdx,
        List.length_map]
    have hnew : (ps.foldl declare b).scope.locals[UInt32.ofNat p.frameAddress]? = none := by
      refine Option.eq_none_iff_forall_ne_some.mpr fun v hv => ?_
      obtain ⟨q, hq, ha, -⟩ := (hget _ v).mp hv
      exact hdistinct q (List.mem_of_getElem? hq)
        (ha.symm.trans (UInt32.toNat_ofNat_of_lt' hbound))
    have hconcat : ∀ i q, (ps ++ [p])[i]? = some q ↔
        ps[i]? = some q ∨ (i = ps.length ∧ q = p) := by
      intro i q
      rw [List.getElem?_append]
      grind
    obtain ⟨hsize', hget'⟩ := locals_declare hbound hnew
    rw [List.foldl_append, List.foldl_cons, List.foldl_nil]
    refine ⟨?_, fun a v => ?_⟩
    · rw [hsize', hsize, List.length_append, List.length_singleton]
    · simp only [hget', hget, hconcat, hcount]
      constructor
      · rintro (⟨q, hq, ha, hw⟩ | ⟨ha, rfl⟩)
        · exact ⟨q, Or.inl hq, ha, hw⟩
        · exact ⟨p, Or.inr ⟨rfl, rfl⟩, ha, rfl⟩
      · rintro ⟨q, hq | ⟨hindex, rfl⟩, ha, hw⟩
        · exact Or.inl ⟨q, hq, ha, hw⟩
        · exact Or.inr ⟨ha, by rw [← hindex, ← hw]⟩

namespace Routine

/-- **Locals never share bytes of the frame.** For all groups that are read from a memory of fewer
than `2 ^ 23` bytes: no sum of the layout leaves 32 bits; the scope has one entry for each local that
is declared, under its frame address; each local stands at a multiple of its width and behind all
that are declared before it; and each group stands at its start, its locals adjacent, with less
padding before it than its width. -/
theorem locals_apart {c rest : Cursor} (hm : c.memory.size < 0x800000) {routine : UInt32}
    {fuel : Nat} {groups : List LocalGroup} (h : c.localGroups routine fuel = .ok (groups, rest))
    (address ramStart : UInt32) :
    LocalGroup.checkedLayout 0 groups = some ((LocalGroup.layout 0 groups).map LocalGroup.narrow) ∧
    ((binder address ramStart groups).scope.locals.size = (groups.map (·.count)).sum ∧
      (binder address ramStart groups).draft.locals.size = (groups.map (·.count)).sum ∧
      ∀ (a : UInt32) (v : Local), (binder address ramStart groups).scope.locals[a]? = some v ↔
        ∃ p, (LocalGroup.layout 0 groups)[v.index]? = some p ∧ a.toNat = p.frameAddress ∧
          v.width = p.width) ∧
    (∀ p ∈ LocalGroup.layout 0 groups, p.width.bytes ∣ p.frameAddress) ∧
    (LocalGroup.layout 0 groups).Pairwise
      (fun p q => p.frameAddress + p.width.bytes ≤ q.frameAddress) ∧
    ∃ starts, LocalGroup.Stand 0 groups starts ∧
      LocalGroup.layout 0 groups = LocalGroup.placed groups starts := by
  have hextent := Cursor.extent_of_localGroups hm h
  have hpairwise := LocalGroup.pairwise_layout 0 groups
  have hlt : ∀ p ∈ LocalGroup.layout 0 groups, p.frameAddress < 0x100000000 := by
    intro p hp
    have hbounds := (LocalGroup.bounds_of_mem_layout hp).2.1
    omega
  have hnodup : ((LocalGroup.layout 0 groups).map (·.frameAddress)).Nodup := by
    refine List.pairwise_map.mpr (hpairwise.imp fun {p q} hpq => ?_)
    have hpos := p.width.bytes_pos
    unfold LocalGroup.Precedes at hpq
    omega
  have hfresh : Binder.Fresh { routine := address, scope := { ramStart := ramStart } } :=
    ⟨rfl, rfl, rfl, fun a v ha => by simp at ha⟩
  obtain ⟨hsize, hget⟩ := Binder.locals_foldl_declare hfresh rfl rfl _ hlt hnodup
  have hdeclared := congrArg List.length (binder_spec address ramStart groups).2.2
  rw [Array.length_toList, LocalGroup.declared, List.length_mapIdx,
    ← LocalGroup.map_width_layout 0, List.length_map] at hdeclared
  rw [← LocalGroup.length_layout 0]
  exact ⟨LocalGroup.checkedLayout_eq hextent, ⟨hsize, hdeclared, hget⟩,
    fun p hp => (LocalGroup.bounds_of_mem_layout hp).2.2, hpairwise,
    LocalGroup.layout_eq_placed 0 groups⟩

/-- Groups with padding between them, one of them without locals. -/
def spaced : Cursor := ⟨{ bytes := #[1, 1, 4, 0, 2, 2, 1, 3, 4, 1, 0, 0] }, 0⟩

theorem locals_apart_spaced : spaced.memory.size < 0x800000 ∧ ∃ groups rest,
    spaced.localGroups 0 12 = .ok (groups, rest) ∧
      (LocalGroup.layout 0 groups).map (·.frameAddress) = [0, 4, 6, 8, 9, 10, 12] ∧
      (binder 0 0 groups).scope.locals.size = 7 := by
  have hread : spaced.localGroups 0 12 =
      .ok ([⟨.byte, 1⟩, ⟨.dword, 0⟩, ⟨.word, 2⟩, ⟨.byte, 3⟩, ⟨.dword, 1⟩], spaced.seek 12) := by
    rfl
  have hsmall : spaced.memory.size < 0x800000 := by decide
  exact ⟨hsmall, _, _, hread, by decide, (locals_apart hsmall hread 0 0).2.1.1⟩

end Routine

end StoryVM
