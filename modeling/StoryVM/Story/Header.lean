import StoryVM.Memory.Cursor

/-! # The header of a story image

A story image starts with 36 bytes: the magic number, the format version, and seven dwords. The last
of them is a checksum: the sum modulo `2 ^ 32` of all whole dwords of the image except itself. -/

namespace StoryVM

/-- A format version. -/
structure Version where
  major : UInt16
  minor : UInt8
  subMinor : UInt8
  deriving DecidableEq, Repr

namespace Version

/-- The version as text. -/
def render (v : Version) : String :=
  toString v.major.toNat ++ "." ++ toString v.minor.toNat ++ "." ++ toString v.subMinor.toNat

/-- Versions in order: by major, then minor, then sub-minor number. -/
def order (a b : Version) : Ordering :=
  (compare a.major b.major).then
    ((compare a.minor b.minor).then (compare a.subMinor b.subMinor))

end Version

/-- **The header.** -/
structure Header where
  version : Version
  /-- The first writable address. -/
  ramStart : UInt32
  /-- The length of the image. -/
  extStart : UInt32
  /-- The size of memory after loading. -/
  endMem : UInt32
  /-- The capacity of the value stack. -/
  stackSize : UInt32
  /-- The address of the routine to start with. -/
  startFunc : UInt32
  /-- The address of the table for compressed strings. -/
  decodingTable : UInt32
  checksum : UInt32
  deriving DecidableEq, Repr

namespace Header

/-- The first dword of every story image. -/
def magic : UInt32 := 0x476C756C

/-- The size of the header in bytes. -/
def bytes : Nat := 36

/-- The number of the dword that holds the checksum. -/
def checksumIndex : Nat := 8

/-- **Reads the header** at the start of an image. -/
def read (m : Memory) : Except Fault Header := do
  if m.size < bytes then throw (.malformedImage (.tooShort m.size bytes))
  let (found, c) ← Cursor.next ⟨m, 0⟩ .dword
  if found ≠ magic then throw (.malformedImage (.badMagic found))
  let (major, c) ← c.next .word
  let (minor, c) ← c.nextByte
  let (subMinor, c) ← c.nextByte
  let (ramStart, c) ← c.next .dword
  let (extStart, c) ← c.next .dword
  let (endMem, c) ← c.next .dword
  let (stackSize, c) ← c.next .dword
  let (startFunc, c) ← c.next .dword
  let (decodingTable, c) ← c.next .dword
  let (checksum, _) ← c.next .dword
  return { version := ⟨major.toUInt16, minor, subMinor⟩, ramStart, extStart, endMem, stackSize,
           startFunc, decodingTable, checksum }

end Header

/-- The whole dwords of memory. -/
def Memory.dwords (m : Memory) : List UInt32 :=
  (List.range (m.size / 4)).map fun k => Bytes.decode (Bytes.window m.bytes (4 * k) 4)

/-- **The checksum** of an image: the sum of its dwords except the one that holds it. -/
def Memory.checksum (m : Memory) : UInt32 :=
  (m.dwords.eraseIdx Header.checksumIndex).foldl (· + ·) 0

end StoryVM
