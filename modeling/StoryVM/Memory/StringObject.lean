import StoryVM.Memory.Cursor
import StoryVM.Text.Scalar

/-! # String objects

A string object in memory starts with a type byte. Type `E0` is followed by Latin-1 characters and a
zero byte; type `E2` by three padding bytes, code points of four bytes each and a zero dword. Other
types are not supported. -/

namespace StoryVM

namespace Cursor

/-- The code points from the cursor up to the first zero of width `w`. Each takes at least one byte
of memory, so `fuel` only has to exceed the number of bytes that are left. -/
def codePoints (w : Width) : (fuel : Nat) → Cursor → Except Fault (List UInt32)
  | 0, c => .error (c.memory.rangeFault c.address w.bytes)
  | fuel + 1, c => do
    let (code, rest) ← c.next w
    if code = 0 then return []
    return code :: (← codePoints w fuel rest)

end Cursor

namespace Memory

/-- The code points of the string object at an address. -/
def stringCodes (m : Memory) (address : UInt32) : Except Fault (List UInt32) := do
  let (typeByte, rest) ← Cursor.nextByte ⟨m, address⟩
  match typeByte with
  | 0xE0 => rest.codePoints .byte (m.size + 1)
  | 0xE2 =>
    let (_, rest) ← rest.next .byte
    let (_, rest) ← rest.next .byte
    let (_, rest) ← rest.next .byte
    rest.codePoints .dword (m.size + 1)
  | _ => .error (.unsupportedString address typeByte)

/-- **The text of the string object** at an address. -/
def readString (m : Memory) (address : UInt32) : Except Fault String :=
  (m.stringCodes address).map fun codes => String.ofList (codes.map Text.scalar)

end Memory

end StoryVM
