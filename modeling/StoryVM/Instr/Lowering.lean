import Std.Data.TreeMap
import StoryVM.Instr

/-! # What instructions stand for

An instruction of a routine stands for at most one statement. Operands become expressions and
assignments, and jump offsets become addresses; which label stands for an address is left open here.
Loads are evaluated from left to right, and the result is stored once. -/

namespace StoryVM

/-- What the operands of a routine refer to. -/
structure Scope where
  /-- The start of writable memory. -/
  ramStart : UInt32
  /-- The local at each frame address. -/
  locals : Std.TreeMap UInt32 Local := ∅

/-- Where a jump leads: out of the routine with a value, or to an address. -/
inductive Destination where
  | ret (value : UInt32)
  | address (target : UInt32)
  deriving DecidableEq, Repr

/-- **What an instruction stands for.** -/
inductive Effect where
  /-- Nothing. -/
  | nop
  /-- A statement that names no label. -/
  | stmt (s : Stmt)
  /-- A jump to an address. -/
  | jump (target : UInt32)
  /-- A jump to an address under a condition. -/
  | branch (cond : Expr) (target : UInt32)
  deriving DecidableEq, Repr

/-- The largest constant number of arguments that a call takes as single pops. -/
def maxInlineArguments : UInt32 := 256

/-- Where a jump with the given offset leads, for an instruction followed by `next`. The offsets 0
and 1 return that value. -/
def Operand.destination (offset : Operand) (next : UInt32) : Except DecodeFault Destination :=
  if offset.kind = .constant then
    if offset.value = 0 ∨ offset.value = 1 then .ok (.ret offset.value)
    else .ok (.address (next + offset.value - 2))
  else .error (.nonConstantOffset offset.kind)

/-- The effect of going to a destination. -/
def Destination.toEffect : Destination → Effect
  | ret v => .stmt (.ret (.ofBits v))
  | address a => .jump a

/-- The effect of going to a destination under a condition. -/
def Destination.toBranch (cond : Expr) : Destination → Effect
  | ret v => .stmt (.branch cond (.ret (.ofBits v)))
  | address a => .branch cond a

/-- The address of an array element. -/
def elementAddress (w : Width) (base offset : Expr) : Expr :=
  match w with
  | .byte => base.plus offset
  | _ => base.plus (offset.times (.ofBits (UInt32.ofNat w.bytes)))

namespace Scope

/-- The local at a frame address. -/
def localAt (s : Scope) (frameAddress : UInt32) : Except DecodeFault Local :=
  match s.locals.get? frameAddress with
  | some var => .ok var
  | none => .error (.unknownLocal frameAddress)

/-- The address of an offset into writable memory. -/
def ramAddress (s : Scope) (offset : UInt32) : Expr :=
  (Expr.ofBits s.ramStart).plus (.ofBits offset)

/-- **The value of an operand**, read from memory at the given width. -/
def fetch (s : Scope) (o : Operand) (w : Width := .dword) : Except DecodeFault Expr :=
  match o.kind with
  | .constant => .ok (.ofBits o.value)
  | .address => .ok (.load w (.ofBits o.value))
  | .stack => .ok .pop
  | .localSlot => .readLocal <$> s.localAt o.value
  | .ram => .ok (.load w (s.ramAddress o.value))

/-- **The statement that stores a value** in an operand, in memory at the given width. -/
def assign (s : Scope) (o : Operand) (value : Expr) (w : Width := .dword) :
    Except DecodeFault Effect :=
  match o.kind with
  | .constant =>
    if o.value = 0 then .ok (.stmt (.eval value)) else .error (.invalidStoreTarget o.value)
  | .address => .ok (.stmt (.store w (.ofBits o.value) value))
  | .stack => .ok (.stmt (.push value))
  | .localSlot => return .stmt (.writeLocal (← s.localAt o.value) value)
  | .ram => .ok (.stmt (.store w (s.ramAddress o.value) value))

/-- The call with arguments from the value stack. A small constant number of them is popped one by
one; otherwise the number is looked at when the call runs. -/
def stackCall (s : Scope) (address count : Operand) : Except DecodeFault Expr := do
  if count.kind = .constant ∧ count.value ≤ maxInlineArguments then
    return .call (← s.fetch address) (List.replicate count.value.toNat .pop)
  else
    return .callCounted (← s.fetch address) (← s.fetch count)

/-- A value narrowed to a width, unless it is known to fit. -/
def narrowed (w : Width) (value : Expr) : Expr :=
  let fits : Bool :=
    match value with
    | .readLocal var => var.width = w
    | _ => w = .dword
  if fits then value else .convert w false value

/-- **What an instruction stands for.** An opcode without an action, or with operands that do not
suit it, is unsupported. -/
def lower (s : Scope) (i : Instr) : Except DecodeFault Effect :=
  let unsupported := .error (.unsupportedOpcode i.opcode.name i.opcode.number)
  match i.opcode.action, i.loads, i.stores with
  | some .nop, [], [] => .ok .nop
  | some (.arith op), [l, r], [d] => do s.assign d (.arith op (← s.fetch l) (← s.fetch r))
  | some .negate, [v], [d] => do s.assign d (Expr.minus (.const 0) (← s.fetch v))
  | some .jump, [offset], [] => Destination.toEffect <$> offset.destination i.next
  | some (.branchZero op), [v, offset], [] => do
    let cond := .compare op (← s.fetch v) (.const 0)
    return (← offset.destination i.next).toBranch cond
  | some (.branch op), [l, r, offset], [] => do
    let cond := .compare op (← s.fetch l) (← s.fetch r)
    return (← offset.destination i.next).toBranch cond
  | some .call, [address, count], [d] => do s.assign d (← s.stackCall address count)
  | some (.callFixed n), address :: args, [d] =>
    if args.length = n then do
      s.assign d (.call (← s.fetch address) (← args.mapM s.fetch))
    else unsupported
  | some .ret, [v], [] => return .stmt (.ret (← s.fetch v))
  | some (.copy w), [v], [d] => do s.assign d (narrowed w (← s.fetch v w)) w
  | some (.signExtend w), [v], [d] => do s.assign d (.convert w true (← s.fetch v))
  | some (.loadElement w), [base, offset], [d] => do
    s.assign d (.load w (elementAddress w (← s.fetch base) (← s.fetch offset)))
  | some (.storeElement w), [base, offset, v], [] => do
    let address := elementAddress w (← s.fetch base) (← s.fetch offset)
    return .stmt (.store w address (← s.fetch v))
  | some .copyStack, [count], [] => return .stmt (.copyStack (← s.fetch count))
  | some .putChar, [v], [] => return .stmt (.putChar (← s.fetch v))
  | some .putNumber, [v], [] => return .stmt (.putNumber (← s.fetch v))
  | some .putString, [v], [] => return .stmt (.putString (← s.fetch v))
  | some .memorySize, [], [d] => s.assign d .memorySize
  | some .quit, [], [] => .ok (.stmt .quit)
  -- The operand is for the answer of a restore that fails, which the host reports itself.
  | some .restoreUndo, [], [_] => .ok (.stmt .restoreUndo)
  | some .glk, [selector, count], [d] => do
    s.assign d (.glk [← s.fetch selector, ← s.fetch count])
  | _, _, _ => unsupported

end Scope

end StoryVM
