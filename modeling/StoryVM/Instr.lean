import StoryVM.Instr.Opcode
import StoryVM.Memory.Cursor

/-! # Instructions in memory

An instruction is an opcode number, a mode for each operand, two to a byte and the low one first,
and then the data of all operands in order. The opcode number takes one, two or four bytes, told
apart by the top bits of the first.

A stream of instructions ends at the first opcode number that is not in the table, and where memory
ends. `Listing.scan` lists the instructions of a stream. -/

namespace StoryVM

/-- **An instruction**: its opcode, the operands it loads and those it stores to, where it stands
and where the next one stands. -/
structure Instr where
  opcode : Opcode
  loads : List Operand
  stores : List Operand
  address : UInt32
  next : UInt32
  deriving DecidableEq, Repr

namespace Cursor

/-- The opcode number at the cursor, and the cursor after it. -/
def opcodeNumber (c : Cursor) : Except Fault (UInt32 × Cursor) := do
  let first ← c.peek
  if 0xC0 ≤ first then
    let (v, rest) ← c.next .dword
    return (v &&& 0x0FFFFFFF, rest)
  else if 0x80 ≤ first then
    let (v, rest) ← c.next .word
    return (v &&& 0x3FFF, rest)
  else
    let (v, rest) ← c.next .byte
    return (v &&& 0x7F, rest)

/-- The operand of a mode whose data stand at the cursor, and the cursor after them. -/
def operand (c : Cursor) (m : Mode) : Except Fault (Operand × Cursor) :=
  match m.field with
  | none => .ok (⟨m.kind, 0⟩, c)
  | some w => do
    let (data, rest) ← c.next w
    return (m.operand w data, rest)

/-- The operand with the given mode number, in the routine at `routine`. -/
def operandOfNibble (c : Cursor) (routine : UInt32) (nibble : UInt8) :
    Except Fault (Operand × Cursor) :=
  match Mode.ofNibble? nibble with
  | some m => c.operand m
  | none => .error (.decode routine (.invalidMode nibble))

/-- **The operands of an instruction** for a list of roles. One cursor stands at the next mode byte
and one at the next operand's data; the latter comes back. -/
def operands (routine : UInt32) (modes data : Cursor) :
    List Role → Except Fault (List (Role × Operand) × Cursor)
  | [] => .ok ([], data)
  | [r] => do
    let (pair, _) ← modes.nextByte
    let (o, data) ← data.operandOfNibble routine (pair &&& 0x0F)
    return ([(r, o)], data)
  | r₁ :: r₂ :: rest => do
    let (pair, modes) ← modes.nextByte
    let (o₁, data) ← data.operandOfNibble routine (pair &&& 0x0F)
    let (o₂, data) ← data.operandOfNibble routine (pair >>> 4)
    let (more, data) ← operands routine modes data rest
    return ((r₁, o₁) :: (r₂, o₂) :: more, data)

/-- The instruction at `address` whose opcode is known and whose modes stand at the cursor, and the
cursor after it. -/
def instr (c : Cursor) (routine address : UInt32) (opcode : Opcode) :
    Except Fault (Instr × Cursor) := do
  let data := c.advance ((opcode.roles.length + 1) / 2)
  let (all, rest) ← operands routine c data opcode.roles
  let withRole (r : Role) := (all.filter (·.1 = r)).map (·.2)
  return (⟨opcode, withRole .load, withRole .store, address, rest.address⟩, rest)

end Cursor

/-- **The instructions of a stream**, and the fault that cut the stream short, if any. -/
structure Listing where
  instrs : List Instr
  fault : Option Fault := none
  deriving DecidableEq, Repr

namespace Listing

/-- Lists the instructions from the cursor on, after those seen already (last first). Each takes at
least one byte, so `fuel` only has to reach the number of bytes that are left. -/
def scanFrom (routine : UInt32) : (fuel : Nat) → Cursor → (seen : List Instr) → Listing
  | 0, _, seen => ⟨seen.reverse, none⟩
  | fuel + 1, c, seen =>
    match c.opcodeNumber with
    | .error _ => ⟨seen.reverse, none⟩
    | .ok (number, modes) =>
      match Opcode.ofNumber? number with
      | none => ⟨seen.reverse, none⟩
      | some opcode =>
        match modes.instr routine c.address opcode with
        | .error fault => ⟨seen.reverse, some fault⟩
        | .ok (i, rest) => scanFrom routine fuel rest (i :: seen)

/-- **The stream at the cursor**, in the routine at `routine`. -/
def scan (routine : UInt32) (c : Cursor) : Listing := scanFrom routine c.memory.size c []

end Listing

end StoryVM
