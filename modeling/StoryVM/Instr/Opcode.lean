import StoryVM.Ir.Expr
import StoryVM.Text.Hex

/-! # The opcode table

Every opcode that may stand in an instruction stream, with the role of each of its operands. An
opcode that routines may use has an action; the others are known by name only, and a stream ends at
the first number that is not in the table. -/

namespace StoryVM

/-- What an instruction does with an operand. -/
inductive Role where
  | load
  | store
  deriving DecidableEq, Repr

/-- What a usable opcode does. -/
inductive Action where
  /-- Nothing. -/
  | nop
  /-- Store the result of an arithmetic operation on two operands. -/
  | arith (op : ArithOp)
  /-- Store the negative of an operand. -/
  | negate
  /-- Jump. -/
  | jump
  /-- Jump if an operand compares with zero. -/
  | branchZero (op : CompareOp)
  /-- Jump if two operands compare. -/
  | branch (op : CompareOp)
  /-- Call with arguments from the value stack. -/
  | call
  /-- Call with a fixed number of operands as arguments. -/
  | callFixed (argCount : Nat)
  /-- Return an operand. -/
  | ret
  /-- Copy a value of a width. -/
  | copy (width : Width)
  /-- Store an operand narrowed to a width with its sign. -/
  | signExtend (width : Width)
  /-- Store an element of an array. -/
  | loadElement (width : Width)
  /-- Set an element of an array. -/
  | storeElement (width : Width)
  /-- Repeat the top of the value stack. -/
  | copyStack
  /-- Print a character. -/
  | putChar
  /-- Print a number. -/
  | putNumber
  /-- Print a string object. -/
  | putString
  /-- Store the memory size. -/
  | memorySize
  /-- Halt. -/
  | quit
  /-- Go back to the last saved state. -/
  | restoreUndo
  /-- Store the answer of the host's input and output system. -/
  | glk
  deriving DecidableEq, Repr

/-- **An opcode**: its number, its name, the roles of its operands in the order of the stream, and
what it does if routines may use it. -/
structure Opcode where
  number : UInt32
  name : String
  roles : List Role
  action : Option Action := none
  deriving DecidableEq, Repr

namespace Opcode

/-- The table. -/
def table : List Opcode :=
  [ ⟨0x00, "nop", [], some .nop⟩,
    ⟨0x10, "add", [.load, .load, .store], some (.arith .add)⟩,
    ⟨0x11, "sub", [.load, .load, .store], some (.arith .sub)⟩,
    ⟨0x12, "mul", [.load, .load, .store], some (.arith .mul)⟩,
    ⟨0x13, "div", [.load, .load, .store], some (.arith .div)⟩,
    ⟨0x14, "mod", [.load, .load, .store], some (.arith .mod)⟩,
    ⟨0x15, "neg", [.load, .store], some .negate⟩,
    ⟨0x18, "bitand", [.load, .load, .store], none⟩,
    ⟨0x19, "bitor", [.load, .load, .store], none⟩,
    ⟨0x1a, "bitxor", [.load, .load, .store], none⟩,
    ⟨0x1b, "bitnot", [.load, .store], none⟩,
    ⟨0x1c, "shiftl", [.load, .load, .store], none⟩,
    ⟨0x1d, "sshiftr", [.load, .load, .store], none⟩,
    ⟨0x1e, "ushiftr", [.load, .load, .store], none⟩,
    ⟨0x20, "jump", [.load], some .jump⟩,
    ⟨0x22, "jz", [.load, .load], some (.branchZero .eq)⟩,
    ⟨0x23, "jnz", [.load, .load], some (.branchZero .ne)⟩,
    ⟨0x24, "jeq", [.load, .load, .load], some (.branch .eq)⟩,
    ⟨0x25, "jne", [.load, .load, .load], some (.branch .ne)⟩,
    ⟨0x26, "jlt", [.load, .load, .load], some (.branch .lt)⟩,
    ⟨0x27, "jge", [.load, .load, .load], some (.branch .ge)⟩,
    ⟨0x28, "jgt", [.load, .load, .load], some (.branch .gt)⟩,
    ⟨0x29, "jle", [.load, .load, .load], some (.branch .le)⟩,
    ⟨0x2a, "jltu", [.load, .load, .load], none⟩,
    ⟨0x2b, "jgeu", [.load, .load, .load], none⟩,
    ⟨0x2c, "jgtu", [.load, .load, .load], none⟩,
    ⟨0x2d, "jleu", [.load, .load, .load], none⟩,
    ⟨0x30, "call", [.load, .load, .store], some .call⟩,
    ⟨0x31, "return", [.load], some .ret⟩,
    ⟨0x32, "catch", [.store, .load], none⟩,
    ⟨0x33, "throw", [.load, .load], none⟩,
    ⟨0x34, "tailcall", [.load, .load], none⟩,
    ⟨0x40, "copy", [.load, .store], some (.copy .dword)⟩,
    ⟨0x41, "copys", [.load, .store], some (.copy .word)⟩,
    ⟨0x42, "copyb", [.load, .store], some (.copy .byte)⟩,
    ⟨0x44, "sexs", [.load, .store], some (.signExtend .word)⟩,
    ⟨0x45, "sexb", [.load, .store], some (.signExtend .byte)⟩,
    ⟨0x48, "aload", [.load, .load, .store], some (.loadElement .dword)⟩,
    ⟨0x49, "aloads", [.load, .load, .store], some (.loadElement .word)⟩,
    ⟨0x4a, "aloadb", [.load, .load, .store], some (.loadElement .byte)⟩,
    ⟨0x4b, "aloadbit", [.load, .load, .store], none⟩,
    ⟨0x4c, "astore", [.load, .load, .load], some (.storeElement .dword)⟩,
    ⟨0x4d, "astores", [.load, .load, .load], some (.storeElement .word)⟩,
    ⟨0x4e, "astoreb", [.load, .load, .load], some (.storeElement .byte)⟩,
    ⟨0x4f, "astorebit", [.load, .load, .load], none⟩,
    ⟨0x50, "stkcount", [.store], none⟩,
    ⟨0x51, "stkpeek", [.load, .store], none⟩,
    ⟨0x52, "stkswap", [], none⟩,
    ⟨0x53, "stkroll", [.load, .load], none⟩,
    ⟨0x54, "stkcopy", [.load], some .copyStack⟩,
    ⟨0x70, "streamchar", [.load], some .putChar⟩,
    ⟨0x71, "streamnum", [.load], some .putNumber⟩,
    ⟨0x72, "streamstr", [.load], some .putString⟩,
    ⟨0x73, "streamunichar", [.load], some .putChar⟩,
    ⟨0x100, "gestalt", [.load, .load, .store], none⟩,
    ⟨0x101, "debugtrap", [.load], none⟩,
    ⟨0x102, "getmemsize", [.store], some .memorySize⟩,
    ⟨0x103, "setmemsize", [.load, .store], none⟩,
    ⟨0x104, "jumpabs", [.load], none⟩,
    ⟨0x110, "random", [.load, .store], none⟩,
    ⟨0x111, "setrandom", [.load], none⟩,
    ⟨0x120, "quit", [], some .quit⟩,
    ⟨0x121, "verify", [.store], none⟩,
    ⟨0x122, "restart", [], none⟩,
    ⟨0x123, "save", [.load, .store], none⟩,
    ⟨0x124, "restore", [.load, .store], none⟩,
    ⟨0x125, "saveundo", [.store], none⟩,
    ⟨0x126, "restoreundo", [.store], some .restoreUndo⟩,
    ⟨0x127, "protect", [.load, .load], none⟩,
    ⟨0x130, "glk", [.load, .load, .store], some .glk⟩,
    ⟨0x140, "getstringtbl", [.store], none⟩,
    ⟨0x141, "setstringtbl", [.load], none⟩,
    ⟨0x148, "getiosys", [.store, .store], none⟩,
    ⟨0x149, "setiosys", [.load, .load], none⟩,
    ⟨0x150, "linearsearch", [.load, .load, .load, .load, .load, .load, .load, .store], none⟩,
    ⟨0x151, "binarysearch", [.load, .load, .load, .load, .load, .load, .load, .store], none⟩,
    ⟨0x152, "linkedsearch", [.load, .load, .load, .load, .load, .load, .store], none⟩,
    ⟨0x160, "callf", [.load, .store], some (.callFixed 0)⟩,
    ⟨0x161, "callfi", [.load, .load, .store], some (.callFixed 1)⟩,
    ⟨0x162, "callfii", [.load, .load, .load, .store], some (.callFixed 2)⟩,
    ⟨0x163, "callfiii", [.load, .load, .load, .load, .store], some (.callFixed 3)⟩,
    ⟨0x170, "mzero", [.load, .load], none⟩,
    ⟨0x171, "mcopy", [.load, .load, .load], none⟩,
    ⟨0x178, "malloc", [.load, .store], none⟩,
    ⟨0x179, "mfree", [.load], none⟩,
    ⟨0x180, "accelfunc", [.load, .load], none⟩,
    ⟨0x181, "accelparam", [.load, .load], none⟩,
    ⟨0x190, "numtof", [.load, .store], none⟩,
    ⟨0x191, "ftonumz", [.load, .store], none⟩,
    ⟨0x192, "ftonumn", [.load, .store], none⟩,
    ⟨0x198, "ceil", [.load, .store], none⟩,
    ⟨0x199, "floor", [.load, .store], none⟩,
    ⟨0x1a0, "fadd", [.load, .load, .store], none⟩,
    ⟨0x1a1, "fsub", [.load, .load, .store], none⟩,
    ⟨0x1a2, "fmul", [.load, .load, .store], none⟩,
    ⟨0x1a3, "fdiv", [.load, .load, .store], none⟩,
    ⟨0x1a4, "fmod", [.load, .load, .store, .store], none⟩,
    ⟨0x1a8, "sqrt", [.load, .store], none⟩,
    ⟨0x1a9, "exp", [.load, .store], none⟩,
    ⟨0x1aa, "log", [.load, .store], none⟩,
    ⟨0x1ab, "pow", [.load, .load, .store], none⟩,
    ⟨0x1b0, "sin", [.load, .store], none⟩,
    ⟨0x1b1, "cos", [.load, .store], none⟩,
    ⟨0x1b2, "tan", [.load, .store], none⟩,
    ⟨0x1b3, "asin", [.load, .store], none⟩,
    ⟨0x1b4, "acos", [.load, .store], none⟩,
    ⟨0x1b5, "atan", [.load, .store], none⟩,
    ⟨0x1b6, "atan2", [.load, .load, .store], none⟩,
    ⟨0x1c0, "jfeq", [.load, .load, .load, .load], none⟩,
    ⟨0x1c1, "jfne", [.load, .load, .load, .load], none⟩,
    ⟨0x1c2, "jflt", [.load, .load, .load], none⟩,
    ⟨0x1c3, "jfle", [.load, .load, .load], none⟩,
    ⟨0x1c4, "jfgt", [.load, .load, .load], none⟩,
    ⟨0x1c5, "jfge", [.load, .load, .load], none⟩,
    ⟨0x1c8, "jisnan", [.load, .load], none⟩,
    ⟨0x1c9, "jisinf", [.load, .load], none⟩ ]

/-- The opcode with the given number. -/
def ofNumber? (number : UInt32) : Option Opcode := table.find? (·.number = number)

/-- The name and the number, as shown to a reader. -/
def render (o : Opcode) : String := o.name ++ " (0x" ++ Text.hex o.number.toNat ++ ")"

end Opcode

end StoryVM
