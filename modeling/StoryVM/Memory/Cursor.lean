import StoryVM.Memory

/-! # Reading memory in sequence

A cursor stands at an address of a memory. Reading a value moves it past the value; a read that
fails yields no new cursor, so the old one stays where it was. -/

namespace StoryVM

/-- A reading position in a memory. -/
structure Cursor where
  memory : Memory
  address : UInt32
  deriving DecidableEq, Repr

namespace Cursor

/-- The cursor at another address. -/
def seek (c : Cursor) (address : UInt32) : Cursor := { c with address := address }

/-- The cursor moved on by a number of bytes. -/
def advance (c : Cursor) (n : Nat) : Cursor := c.seek (c.address + UInt32.ofNat n)

/-- The next byte, without moving. -/
def peek (c : Cursor) : Except Fault UInt8 :=
  (c.memory.read .byte c.address).map UInt32.toUInt8

/-- **The next value**, and the cursor after it. -/
def next (c : Cursor) (w : Width) : Except Fault (UInt32 × Cursor) :=
  (c.memory.read w c.address).map fun v => (v, c.advance w.bytes)

/-- The next byte, and the cursor after it. -/
def nextByte (c : Cursor) : Except Fault (UInt8 × Cursor) :=
  (c.next .byte).map fun p => (p.1.toUInt8, p.2)

/-- Whether a whole dword is left. -/
def hasDword (c : Cursor) : Bool := c.memory.inRange c.address Width.dword.bytes

end Cursor

end StoryVM
