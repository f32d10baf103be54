import StoryVM.Bytes
import StoryVM.Fault

/-! # Guest memory

A growable array of bytes, addressed by 32-bit numbers, with write-protected regions that can be
added and never removed. Values are big-endian. Every access is checked: first that it lies inside
memory, then, for a write, that it touches no protected region. -/

namespace StoryVM

/-- A write-protected stretch of `length` bytes from `start` on. -/
structure Region where
  start : UInt32
  length : UInt32
  deriving DecidableEq, Repr

/-- Whether an access of `size` bytes at `address` meets the region. Positions are natural numbers,
so nothing wraps around at the top of the address space. -/
def Region.meets (r : Region) (address : UInt32) (size : Nat) : Bool :=
  decide (address.toNat < r.start.toNat + r.length.toNat) &&
    decide (r.start.toNat < address.toNat + size)

/-- **Guest memory.** -/
structure Memory where
  bytes : Array UInt8
  regions : List Region := []
  deriving DecidableEq, Repr

namespace Memory

/-- The size in bytes. -/
def size (m : Memory) : Nat := m.bytes.size

/-- Grows memory to `newSize` bytes; the new bytes are zero. -/
def expand (m : Memory) (newSize : UInt32) : Except Fault Memory :=
  if newSize.toNat < m.size then .error (.memoryShrinks newSize.toNat m.size)
  else .ok { m with bytes := m.bytes ++ Array.replicate (newSize.toNat - m.size) 0 }

/-- Protects a region against writes. -/
def protect (m : Memory) (r : Region) : Memory := { m with regions := m.regions ++ [r] }

/-- Whether the access lies inside memory. -/
def inRange (m : Memory) (address : UInt32) (size : Nat) : Bool :=
  decide (address.toNat + size ≤ m.size)

/-- The fault of an access that leaves memory. -/
def rangeFault (m : Memory) (address : UInt32) (size : Nat) : Fault :=
  .outOfRange address size m.size

/-- **Reads** a value, zero-extended to 32 bits. -/
def read (m : Memory) (w : Width) (address : UInt32) : Except Fault UInt32 :=
  if m.inRange address w.bytes then
    .ok (Bytes.decode (Bytes.window m.bytes address.toNat w.bytes))
  else .error (m.rangeFault address w.bytes)

/-- **Writes** the low bytes of a value. Of several protected regions in the way, the one added
first is reported. -/
def write (m : Memory) (w : Width) (address value : UInt32) : Except Fault Memory :=
  if m.inRange address w.bytes then
    match m.regions.find? (·.meets address w.bytes) with
    | some r => .error (.readOnly address w.bytes r.start r.length)
    | none => .ok { m with bytes := Bytes.splice m.bytes address.toNat (Bytes.encode w value) }
  else .error (m.rangeFault address w.bytes)

end Memory

end StoryVM
