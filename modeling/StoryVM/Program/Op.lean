import StoryVM.Ir.Stmt

/-! # Operations

The operations of a flat program. They work on a stack of operands: most pop their operands from it
and push a result. -/

namespace StoryVM

/-- **Operations.** -/
inductive Op where
  /-- Push a constant. -/
  | const (value : UInt32)
  /-- Push a local. -/
  | readLocal (index : Nat)
  /-- Pop an address, push the value there. -/
  | load (width : Width)
  /-- Pop right, then left; push the result. -/
  | arith (op : ArithOp)
  /-- Pop right, then left; push 1 or 0. -/
  | compare (op : CompareOp)
  /-- Pop a value, push its conversion. -/
  | convert (width : Width) (signed : Bool)
  /-- Pop the arguments, then the address; call the routine there. -/
  | call (argCount : Nat)
  /-- Pop a count, then an address; call with that many arguments from the value stack. -/
  | callCounted
  /-- Push a dword popped from the value stack. -/
  | pop
  /-- Pop the arguments and call the host. -/
  | glk (argCount : Nat)
  /-- Push the memory size. -/
  | memorySize
  /-- The start of a label's block. -/
  | enter (l : Label)
  /-- Drop the top operand. -/
  | discard
  /-- Pop a value into a local. -/
  | writeLocal (index : Nat)
  /-- Pop a value, then an address; store the value. -/
  | store (width : Width)
  /-- Pop a value, push it on the value stack. -/
  | push
  /-- Pop a count, repeat that many dwords of the value stack. -/
  | copyStack
  /-- Continue at a label's block. -/
  | jump (l : Label)
  /-- Pop a condition; continue at a label's block if it is not zero. -/
  | jumpIf (l : Label)
  /-- Pop a condition; continue at an operation if it is zero. -/
  | skipUnless (target : Nat)
  /-- Pop the result and leave the routine. -/
  | ret
  /-- Halt the machine. -/
  | quit
  /-- Pop a code point and print it. -/
  | putChar
  /-- Pop a number and print it. -/
  | putNumber
  /-- Pop an address and print the string object there. -/
  | putString
  /-- Ask the host to go back to its last saved state. -/
  | restoreUndo
  deriving DecidableEq, Repr

/-- The operation that combines the values of an expression's operands. -/
def Expr.op : Expr → Op
  | const value => .const value.toUInt32
  | readLocal var => .readLocal var.index
  | load width _ => .load width
  | arith op _ _ => .arith op
  | compare op _ _ => .compare op
  | convert width signed _ => .convert width signed
  | call _ args => .call args.length
  | callCounted _ _ => .callCounted
  | pop => .pop
  | glk args => .glk args.length
  | memorySize => .memorySize

end StoryVM
