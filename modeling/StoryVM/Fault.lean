import StoryVM.Graph.BlockId
import StoryVM.Instr.Operand
import StoryVM.Ir.Render
import StoryVM.Text.Hex

/-! # Faults

Everything that can go wrong, by cause. `Fault.message` holds the wording and `Fault.kind` sorts
faults into the classes that a caller usually tells apart. -/

namespace StoryVM

open Text (hex hexPadded)

/-- Why a routine could not be read from memory. -/
inductive DecodeFault where
  /-- The type byte is in the range of routines, but names no calling convention. -/
  | unknownRoutineType (typeByte : UInt8)
  /-- The type byte does not introduce a routine. -/
  | notARoutine (typeByte : UInt8)
  /-- A group of locals has a width other than 1, 2 or 4 bytes. -/
  | invalidLocalSize (size : UInt8)
  /-- The operand mode has no meaning. -/
  | invalidMode (nibble : UInt8)
  /-- The opcode is known, but has no meaning for these operands. -/
  | unsupportedOpcode (name : String) (number : UInt32)
  /-- A jump offset is no constant. -/
  | nonConstantOffset (kind : OperandKind)
  /-- A result is to be stored in a constant other than zero. -/
  | invalidStoreTarget (value : UInt32)
  /-- No local starts at this frame address. -/
  | unknownLocal (frameAddress : UInt32)
  /-- A jump leads to where no instruction starts. -/
  | invalidBranchTarget (target : UInt32)
  deriving DecidableEq, Repr

namespace DecodeFault

/-- The wording. -/
def message : DecodeFault → String
  | unknownRoutineType b => "Unknown function type: 0x" ++ hexPadded 2 b.toNat
  | notARoutine b => "Non-function: 0x" ++ hexPadded 2 b.toNat
  | invalidLocalSize n => "Invalid value for local size: " ++ toString n.toNat
  | invalidMode n => "Invalid operand mode: 0x" ++ hex n.toNat
  | unsupportedOpcode name number =>
    "Unsupported opcode: " ++ name ++ " (0x" ++ hex number.toNat ++ ")"
  | nonConstantOffset kind => "Unexpected operand kind for jump offset: " ++ kind.name
  | invalidStoreTarget v => "Store operand cannot be a non-zero constant: " ++ toString v.toNat
  | unknownLocal a => "No local declared at frame address " ++ toString a.toNat
  | invalidBranchTarget a =>
    "Branch target 0x" ++ hex a.toNat ++ " is not the start of an instruction"

/-- Whether the fault lies in the type byte. -/
def isBadType : DecodeFault → Bool
  | unknownRoutineType _ | notARoutine _ => true
  | _ => false

end DecodeFault

/-- Why an image is no story file. -/
inductive ImageFault where
  | tooShort (size headerSize : Nat)
  | badMagic (magic : UInt32)
  | lengthMismatch (size : Nat) (extStart : UInt32)
  | checksumMismatch (computed stored : UInt32)
  | unevenStack (stackSize : UInt32)
  | endBelowStart (endMem extStart : UInt32)
  deriving DecidableEq, Repr

/-- The wording. -/
def ImageFault.message : ImageFault → String
  | tooShort size headerSize =>
    "image is " ++ toString size ++ " bytes, smaller than the " ++ toString headerSize
      ++ "-byte header"
  | badMagic magic => "not a glulx file (magic number 0x" ++ hexPadded 8 magic.toNat ++ ")"
  | lengthMismatch size extStart =>
    "image is " ++ toString size ++ " bytes but ExtStart is " ++ toString extStart.toNat
  | checksumMismatch computed stored =>
    "checksum mismatch: computed 0x" ++ hexPadded 8 computed.toNat ++ ", header says 0x"
      ++ hexPadded 8 stored.toNat
  | unevenStack stackSize =>
    "stack size " ++ toString stackSize.toNat ++ " is not a multiple of 256"
  | endBelowStart endMem extStart =>
    "EndMem 0x" ++ hex endMem.toNat ++ " is below ExtStart 0x" ++ hex extStart.toNat

/-- A structural guarantee that was broken. Routines read from memory never show one. -/
inductive Defect where
  /-- A local was used outside every call. -/
  | noActiveFrame
  /-- A call was left outside every call. -/
  | noFrameToLeave
  /-- An operation found no operand. -/
  | operandMissing
  /-- An operation found too few operands. -/
  | operandsMissing
  /-- A host dispatch has a number of arguments other than two. -/
  | dispatchArity (count : Nat)
  /-- A jump names a label that the program has no block for. -/
  | missingLabel (l : Label)
  /-- A branch of a body guards a statement other than a jump or a return. -/
  | guardAt (position : Nat) (guarded : Stmt)
  /-- A branch to be laid out guards a statement other than a jump or a return. -/
  | guard (guarded : Stmt)
  /-- An edge leads to a block that does not exist. -/
  | missingTarget (source target : BlockId)
  /-- A statement lies in a block that does not exist. -/
  | missingBlock (block : BlockId)
  /-- A block to be laid out belongs to no label of the body. -/
  | blockWithoutLabel (index : Nat)
  /-- A block to be laid out reaches past the statements of the body. -/
  | blockOutOfRange (index : Nat)
  deriving DecidableEq, Repr

/-- The wording. -/
def Defect.message : Defect → String
  | noActiveFrame => "no active call frame"
  | noFrameToLeave => "no call frame to leave"
  | operandMissing => "expression operand missing"
  | operandsMissing => "expression operands missing"
  | dispatchArity count => "glk dispatch expects 2 arguments, got " ++ toString count
  | missingLabel l => "jump to missing label " ++ toString l
  | guardAt position guarded =>
    "branch at statement " ++ toString position ++ " guards " ++ guarded.render
      ++ ", expected a jump or return"
  | guard guarded => "branch guards " ++ guarded.render ++ ", expected a jump or return"
  | missingTarget source target =>
    "edge from " ++ source.render ++ " targets missing block " ++ target.render
  | missingBlock block => "no block for " ++ block.render
  | blockWithoutLabel index => "block " ++ (BlockId.label index).render ++ " has no label"
  | blockOutOfRange index => "block " ++ (BlockId.label index).render ++ " is out of range"

/-- Why limits could not be read. -/
inductive LimitsFault where
  /-- The text is not the JSON form of limits. -/
  | unreadable
  /-- No call would be allowed. -/
  | zeroDepth
  deriving DecidableEq, Repr

/-- The wording. -/
def LimitsFault.message : LimitsFault → String
  | unreadable => "Failed to parse config JSON"
  | zeroDepth => "max_call_depth must be at least 1"

/-- **Faults.** -/
inductive Fault where
  /-- The image cannot be loaded. -/
  | malformedImage (cause : ImageFault)
  /-- The routine at `address` cannot be read. -/
  | decode (address : UInt32) (cause : DecodeFault)
  /-- An access of `size` bytes leaves memory. -/
  | outOfRange (address : UInt32) (size length : Nat)
  /-- A write of `size` bytes touches a protected region. -/
  | readOnly (address : UInt32) (size : Nat) (start length : UInt32)
  /-- Memory was asked to shrink. -/
  | memoryShrinks (requested current : Nat)
  /-- A push does not fit. -/
  | stackOverflow (pointer size capacity : Nat)
  /-- A pop finds too few bytes. -/
  | stackUnderflow (pointer size : Nat)
  /-- A label was handed out and never placed. -/
  | unmarkedLabel (l : Label)
  /-- A label was placed twice. -/
  | labelAlreadyMarked (l : Label)
  /-- A label was never handed out. -/
  | foreignLabel (l : Label)
  /-- A structural guarantee was broken. -/
  | defect (cause : Defect)
  /-- The frame has no such local. -/
  | localOutOfRange (index count : Nat)
  /-- The divisor is zero. -/
  | divisionByZero
  /-- The string object has a type that cannot be printed. -/
  | unsupportedString (address : UInt32) (typeByte : UInt8)
  /-- The host refused. -/
  | host (reason : String)
  /-- Calls are nested too deeply. -/
  | callDepthExceeded (limit : Nat)
  /-- Too many blocks were entered. -/
  | stepLimitExceeded (limit : Nat)
  /-- The limits cannot be read. -/
  | invalidLimits (cause : LimitsFault)
  deriving DecidableEq, Repr

/-- The classes of faults. -/
inductive FaultKind where
  | malformedImage
  | decode
  | outOfRange
  | readOnlyViolation
  | stackImbalance
  | builderMisuse
  | invariant
  | host
  | limit
  deriving DecidableEq, Repr

namespace Fault

/-- **The wording.** -/
def message : Fault → String
  | malformedImage cause => "Malformed image: " ++ cause.message
  | decode address cause =>
    "Failed to decode function at 0x" ++ hex address.toNat ++ ": " ++ cause.message
  | outOfRange address size length =>
    "Address 0x" ++ hex address.toNat ++ " (size " ++ toString size
      ++ ") is out of range for memory of length " ++ toString length
  | readOnly address size start length =>
    "Write to 0x" ++ hex address.toNat ++ " (size " ++ toString size
      ++ ") overlaps read-only region [0x" ++ hex start.toNat ++ ", 0x"
      ++ hex (start + length).toNat ++ ")"
  | memoryShrinks requested current =>
    "New memory size " ++ toString requested ++ " is less than the current size "
      ++ toString current
  | stackOverflow pointer size capacity =>
    "Stack overflow: pushing " ++ toString size ++ " bytes at pointer " ++ toString pointer
      ++ " (capacity " ++ toString capacity ++ ")"
  | stackUnderflow pointer size =>
    "Stack underflow: popping " ++ toString size ++ " bytes at pointer " ++ toString pointer
  | unmarkedLabel l => "Label " ++ toString l ++ " has not been marked"
  | labelAlreadyMarked l => "Label " ++ toString l ++ " is already marked"
  | foreignLabel l => "Label " ++ toString l ++ " was not created by this body builder"
  | defect cause => "Invariant violation: " ++ cause.message
  | localOutOfRange index count =>
    "Local " ++ toString index ++ " is out of range (frame has " ++ toString count ++ " locals)"
  | divisionByZero => "Division by zero"
  | unsupportedString address typeByte =>
    "Unsupported string type 0x" ++ hexPadded 2 typeByte.toNat ++ " at 0x" ++ hex address.toNat
  | host reason => "Host error: " ++ reason
  | callDepthExceeded limit => "Call depth exceeded (limit: " ++ toString limit ++ ")"
  | stepLimitExceeded limit => "Step limit exceeded (max: " ++ toString limit ++ " blocks)"
  | invalidLimits cause => "Invalid configuration: " ++ cause.message

/-- The class of a fault. -/
def kind : Fault → FaultKind
  | malformedImage _ | invalidLimits _ => .malformedImage
  | decode _ _ => .decode
  | outOfRange _ _ _ | memoryShrinks _ _ | localOutOfRange _ _ => .outOfRange
  | readOnly _ _ _ _ => .readOnlyViolation
  | stackOverflow _ _ _ | stackUnderflow _ _ => .stackImbalance
  | unmarkedLabel _ | labelAlreadyMarked _ | foreignLabel _ => .builderMisuse
  | defect _ | divisionByZero | unsupportedString _ _ => .invariant
  | host _ => .host
  | callDepthExceeded _ | stepLimitExceeded _ => .limit

end Fault

end StoryVM
