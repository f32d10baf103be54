import StoryVM.Memory.Cursor

/-! # The layout of locals

A routine declares its locals in groups of one width each. In the call frame a group starts at the
next multiple of its width, and its locals are adjacent. Operands name a local by its frame address,
which has 32 bits. Sums of frame addresses wrap, and nothing here depends on when: the layout is
given in whole numbers, and each address is cut to 32 bits where its local is declared. To wrap every
sum on the way comes to the same (`LocalGroup.wrappingLayout_eq`). -/

namespace StoryVM

/-- A group of locals of one width. -/
structure LocalGroup where
  width : Width
  count : Nat
  deriving DecidableEq, Repr

/-- A local's place in the call frame. -/
structure Placement where
  frameAddress : Nat
  width : Width
  deriving DecidableEq, Repr

/-- The next multiple of a width from an address on. -/
def Width.align (w : Width) (address : Nat) : Nat :=
  if address % w.bytes = 0 then address else address + (w.bytes - address % w.bytes)

/-- The places of the locals of a group that starts at an address. -/
def LocalGroup.placements (g : LocalGroup) (start : Nat) : List Placement :=
  (List.range g.count).map fun k => ⟨start + k * g.width.bytes, g.width⟩

/-- **The places of the locals** of all groups, from a frame address on, in the order of
declaration. Addresses are not cut to 32 bits yet. -/
def LocalGroup.layout (address : Nat) : List LocalGroup → List Placement
  | [] => []
  | g :: rest =>
    let start := g.width.align address
    g.placements start ++ layout (start + g.count * g.width.bytes) rest

/-- The groups at the cursor, up to the closing pair of zeros, and the cursor after it. Each takes
two bytes, so `fuel` only has to reach the number of bytes that are left. -/
def Cursor.localGroups (routine : UInt32) :
    (fuel : Nat) → Cursor → Except Fault (List LocalGroup × Cursor)
  | 0, c => .error (c.memory.rangeFault c.address Width.byte.bytes)
  | fuel + 1, c => do
    let (size, rest) ← c.nextByte
    let (count, rest) ← rest.nextByte
    if size = 0 ∧ count = 0 then return ([], rest)
    match Width.ofBytes? size with
    | none => .error (.decode routine (.invalidLocalSize size))
    | some w =>
      let (groups, rest) ← localGroups routine fuel rest
      return (⟨w, count.toNat⟩ :: groups, rest)

end StoryVM
