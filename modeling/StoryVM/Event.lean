import StoryVM.Routine
import StoryVM.Story.Header

/-! # Events

What a machine reports while it loads and runs a program. -/

namespace StoryVM

open Text (hex)

/-- How much attention an event deserves. -/
inductive Level where
  | debug
  | trace
  | warn
  deriving DecidableEq, Repr

/-- **Events.** -/
inductive Event where
  /-- An image with this header is being laid out. -/
  | loading (header : Header)
  /-- A routine was read from memory. -/
  | decoded (convention : Convention) (address : UInt32) (stmts labels : Nat)
  /-- A routine was entered. -/
  | entered (address : UInt32) (argCount : Nat)
  /-- A routine returned. -/
  | left (address : UInt32) (value : UInt32)
  /-- The machine stopped. -/
  | halted (steps : Nat)
  /-- A call was refused because calls are nested too deeply. -/
  | depthLimit (limit : Nat) (address : UInt32)
  /-- A block was refused because too many were entered. -/
  | stepLimit (limit : Nat)
  /-- A frame could not be left. -/
  | unwindFailed (fault : Fault)
  deriving DecidableEq, Repr

namespace Event

/-- The level of an event. -/
def level : Event → Level
  | loading _ | decoded _ _ _ _ => .debug
  | entered _ _ | left _ _ => .trace
  | halted _ | depthLimit _ _ | stepLimit _ | unwindFailed _ => .warn

/-- The wording. -/
def message : Event → String
  | loading h =>
    "Loading glulx " ++ h.version.render ++ " image: RAM at 0x" ++ hex h.ramStart.toNat ++ ", "
      ++ toString h.endMem.toNat ++ " bytes of memory, " ++ toString h.stackSize.toNat
      ++ " byte stack"
  | decoded convention address stmts labels =>
    "Decoded " ++ convention.name ++ " function at 0x" ++ hex address.toNat ++ ": "
      ++ toString stmts ++ " statements, " ++ toString labels ++ " labels"
  | entered address argCount =>
    "Enter 0x" ++ hex address.toNat ++ " with " ++ toString argCount ++ " args"
  | left address value =>
    "Leave 0x" ++ hex address.toNat ++ " returning " ++ toString value.toNat
  | halted steps => "Machine halted after " ++ toString steps ++ " steps"
  | depthLimit limit address =>
    "Call depth limit of " ++ toString limit ++ " exceeded calling 0x" ++ hex address.toNat
  | stepLimit limit => "Step limit of " ++ toString limit ++ " blocks exceeded"
  | unwindFailed fault => "Failed to unwind call frame: " ++ fault.message

end Event

end StoryVM
