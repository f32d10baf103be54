import StoryVM.Instr.Binder
import StoryVM.Routine
import StoryVM.Routine.Layout

/-! # Reading a routine from memory

A routine in memory is a type byte, the groups of its locals and a stream of instructions. The type
byte is `C0` for arguments on the stack and `C1` for arguments in locals; the rest of the range up
to `DF` is kept for other conventions. -/

namespace StoryVM

/-- The calling convention of a type byte. -/
def Convention.ofTypeByte (b : UInt8) : Except DecodeFault Convention :=
  if b = 0xC0 then .ok .stackArguments
  else if b = 0xC1 then .ok .localArguments
  else if 0xC0 ≤ b ∧ b ≤ 0xDF then .error (.unknownRoutineType b)
  else .error (.notARoutine b)

/-- Declares a local, to be found at its frame address, which is cut to 32 bits. If a frame is so
large that addresses wrap, the local declared last is the one that is found. -/
def Binder.declare (b : Binder) (p : Placement) : Binder :=
  let (var, draft) := b.draft.declareLocal p.width
  let locals := b.scope.locals.insert (UInt32.ofNat p.frameAddress) var
  { b with draft := draft, scope := { b.scope with locals := locals } }

namespace Routine

/-- The calling convention and the local groups of the routine at an address, and the cursor at its
first instruction. -/
def header (m : Memory) (address : UInt32) :
    Except Fault (Convention × List LocalGroup × Cursor) := do
  let (typeByte, rest) ← Cursor.nextByte ⟨m, address⟩
  let convention ← (Convention.ofTypeByte typeByte).mapError (.decode address)
  let (groups, rest) ← rest.localGroups address (m.size + 1)
  return (convention, groups, rest)

/-- The binder for the instructions of a routine with the given locals. -/
def binder (address ramStart : UInt32) (groups : List LocalGroup) : Binder :=
  (LocalGroup.layout 0 groups).foldl Binder.declare
    { routine := address, scope := { ramStart := ramStart } }

/-- **Reads the routine at an address.** The fault that comes first in the stream wins; jump targets
are checked last. -/
def decode (m : Memory) (address ramStart : UInt32) : Except Fault Routine := do
  let (convention, groups, code) ← header m address
  let listing := Listing.scan address code
  let bound ← (binder address ramStart groups).bindAll listing.instrs
  if let some fault := listing.fault then throw fault
  Routine.ofBody convention address (← bound.finish)

end Routine

end StoryVM
