import StoryVM.Width

/-! # Operands and addressing modes

An operand names where an instruction finds a value or puts one: a constant, an absolute memory
address, the value stack, a local, or an address relative to the start of writable memory. In the
instruction stream it is given by a four-bit mode, which fixes the kind and the width of the data
field that follows. -/

namespace StoryVM

/-- Where an operand's value comes from or goes to. -/
inductive OperandKind where
  | constant
  | address
  | stack
  | localSlot
  | ram
  deriving DecidableEq, Repr

/-- The name of the kind in messages. -/
def OperandKind.name : OperandKind → String
  | constant => "constant"
  | address => "address"
  | stack => "stack"
  | localSlot => "local"
  | ram => "ram"

/-- An operand: its kind and its raw value, sign-extended for constants. -/
structure Operand where
  kind : OperandKind
  value : UInt32
  deriving DecidableEq, Repr

/-- An addressing mode: the kind of operand and the width of its data field, if it has one. -/
structure Mode where
  kind : OperandKind
  field : Option Width
  deriving DecidableEq, Repr

namespace Mode

/-- The mode with the given number. Modes 4 and 12 have no meaning. -/
def ofNibble? : UInt8 → Option Mode
  | 0x0 => some ⟨.constant, none⟩
  | 0x1 => some ⟨.constant, some .byte⟩
  | 0x2 => some ⟨.constant, some .word⟩
  | 0x3 => some ⟨.constant, some .dword⟩
  | 0x5 => some ⟨.address, some .byte⟩
  | 0x6 => some ⟨.address, some .word⟩
  | 0x7 => some ⟨.address, some .dword⟩
  | 0x8 => some ⟨.stack, none⟩
  | 0x9 => some ⟨.localSlot, some .byte⟩
  | 0xa => some ⟨.localSlot, some .word⟩
  | 0xb => some ⟨.localSlot, some .dword⟩
  | 0xd => some ⟨.ram, some .byte⟩
  | 0xe => some ⟨.ram, some .word⟩
  | 0xf => some ⟨.ram, some .dword⟩
  | _ => none

/-- The number of data bytes that follow. -/
def dataBytes (m : Mode) : Nat := m.field.elim 0 Width.bytes

/-- The operand for a data field: constants are sign-extended, all else is zero-extended. -/
def operand (m : Mode) (w : Width) (data : UInt32) : Operand :=
  ⟨m.kind, w.convert (decide (m.kind = .constant)) data⟩

end Mode

end StoryVM
