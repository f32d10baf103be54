import Mathlib.Tactic.FinCases
import StoryVM.Instr.Lowering
import StoryVM.Proofs.TreeSemantics

/-! # The meaning of instructions

What the instructions of the set do, one rule for each opcode number and without statements and
expressions: the operands are loaded from left to right, the operation is computed from their values,
and its result, if it has one, is stored once (`Instr.exec`).

* `Operand.load`, `Operand.store`: what the kinds of operands stand for.
* `Instr.compute`: the operations, by opcode number.
* `Instr.exec_of_action`: the same by the actions of the opcode table. -/

namespace StoryVM

open Eval

variable {σ : Type}

/-! ## Operands -/

/-- The slot of the local at a frame address. -/
def Scope.slotAt (s : Scope) (frameAddress : UInt32) : Nat :=
  s.locals[frameAddress]?.elim 0 Local.index

namespace Operand

/-- **The value of an operand**, for memory accesses of a width. -/
def load (s : Scope) (w : Width) (o : Operand) : Eval σ UInt32 :=
  match o.kind with
  | .constant => return o.value
  | .address => readMemory w o.value
  | .stack => popValue
  | .localSlot => readLocal (s.slotAt o.value)
  | .ram => readMemory w (s.ramStart + o.value)

/-- **Stores a value in an operand**, for memory accesses of a width. A constant discards it. -/
def store (s : Scope) (w : Width) (v : UInt32) (o : Operand) : Eval σ Unit :=
  match o.kind with
  | .constant => return ()
  | .address => writeMemory w o.value v
  | .stack => pushValue v
  | .localSlot => writeLocal (s.slotAt o.value) v
  | .ram => writeMemory w (s.ramStart + o.value) v

end Operand

/-! ## Operations -/

/-- What the operation of an instruction comes to. -/
inductive Outcome where
  /-- A result to be stored. -/
  | store (value : UInt32)
  /-- No result; this is how control goes on. -/
  | control (c : Control)
  deriving DecidableEq, Repr

/-- Where a jump leads: the offsets 0 and 1 return that value, all others are relative to two bytes
before the next instruction. -/
def leap (lab : UInt32 → Label) (next offset : UInt32) : Control :=
  if offset = 0 ∨ offset = 1 then .ret offset else .goto (lab (next + offset - 2))

/-- Pops dwords one by one, the first popped first in the list. -/
def Eval.popEach : Nat → Eval σ (List UInt32)
  | 0 => return []
  | n + 1 => do
    let v ← popValue
    let vs ← popEach n
    return v :: vs

/-- The arguments of a call, on the value stack. If their number is a small constant they are popped
one by one; otherwise nothing is popped unless all are there. -/
def Instr.arguments (i : Instr) (count : UInt32) : Eval σ (List UInt32) :=
  if i.loads[1]?.any (·.kind = .constant) ∧ count ≤ maxInlineArguments then popEach count.toNat
  else popArguments count

/-- How an instruction goes on after its operation: a result is stored once. -/
def Instr.conclude (s : Scope) (w : Width) (i : Instr) : Outcome → Eval σ Control
  | .store v => do
    i.stores.forM (·.store s w v)
    return .next
  | .control c => return c

theorem Instr.conclude_store {s : Scope} {w : Width} {i : Instr} {d : Operand}
    (hd : i.stores = [d]) (v : UInt32) :
    (i.conclude s w (.store v) : Eval σ Control) = (do
      d.store s w v
      return .next) := by
  rw [Instr.conclude, hd]
  simp

@[simp] theorem Instr.conclude_control (s : Scope) (w : Width) (i : Instr) (c : Control) :
    (i.conclude s w (.control c) : Eval σ Control) = pure c := rfl

theorem length_of_mapM {α β : Type} {f : α → Eval σ β} {xs : List α} {ys : List β}
    {m m' : Machine σ} (h : xs.mapM f m = some (.ok ys, m')) : ys.length = xs.length := by
  induction xs generalizing m ys with
  | nil =>
    cases h
    rfl
  | cons x rest ih =>
    rw [List.mapM_cons, bind_apply] at h
    split at h
    · cases h
    · rw [bind_apply] at h
      split at h
      · cases h
      · next hrest =>
        cases h
        rw [List.length_cons, ih hrest, List.length_cons]
      · cases h
    · cases h

variable [Host σ]

/-- The answer of the host to a request, whose arguments are on the value stack. -/
def Eval.request (selector count : UInt32) : Eval σ UInt32 := do
  let args ← popArguments count
  attempt fun m =>
    let (answer, host) := Host.glk m.host selector args
    (answer, { m with host := host })

section Rules

variable (s : Scope) (lab : UInt32 → Label) (invoke : UInt32 → List UInt32 → Eval σ UInt32)

/-- The value of a quotient or remainder of signed numbers. -/
def signedDivision (op : Int32 → Int32 → Int32) (l r : UInt32) : Eval σ UInt32 :=
  if r = 0 then fail .divisionByZero else return (op l.toInt32 r.toInt32).toUInt32

/-- Control after a branch with an offset. -/
def Instr.branchIf (i : Instr) (holds : Bool) (offset : UInt32) : Outcome :=
  .control (if holds then leap lab i.next offset else .next)

/-- **The operations of the instruction set**, by opcode number, on the values of the loads. -/
def Instr.compute (i : Instr) (vs : List UInt32) : Eval σ Outcome :=
  match i.opcode.number, vs with
  | 0x00, [] => return .control .next
  | 0x10, [l, r] => return .store (l + r)
  | 0x11, [l, r] => return .store (l - r)
  | 0x12, [l, r] => return .store (l * r)
  | 0x13, [l, r] => return .store (← signedDivision (· / ·) l r)
  | 0x14, [l, r] => return .store (← signedDivision (· % ·) l r)
  | 0x15, [v] => return .store (-v)
  | 0x20, [offset] => return .control (leap lab i.next offset)
  | 0x22, [v, offset] => return i.branchIf lab (v = 0) offset
  | 0x23, [v, offset] => return i.branchIf lab (v ≠ 0) offset
  | 0x24, [l, r, offset] => return i.branchIf lab (l = r) offset
  | 0x25, [l, r, offset] => return i.branchIf lab (l ≠ r) offset
  | 0x26, [l, r, offset] => return i.branchIf lab (l.toInt32 < r.toInt32) offset
  | 0x27, [l, r, offset] => return i.branchIf lab (l.toInt32 ≥ r.toInt32) offset
  | 0x28, [l, r, offset] => return i.branchIf lab (l.toInt32 > r.toInt32) offset
  | 0x29, [l, r, offset] => return i.branchIf lab (l.toInt32 ≤ r.toInt32) offset
  | 0x30, [address, count] => do
    let args ← i.arguments count
    return .store (← invoke address args)
  | 0x31, [v] => return .control (.ret v)
  | 0x40, [v] => return .store v
  | 0x41, [v] => return .store (v &&& 0xffff)
  | 0x42, [v] => return .store (v &&& 0xff)
  | 0x44, [v] => return .store v.toUInt16.toInt16.toInt32.toUInt32
  | 0x45, [v] => return .store v.toUInt8.toInt8.toInt32.toUInt32
  | 0x48, [base, offset] => return .store (← readMemory .dword (base + offset * 4))
  | 0x49, [base, offset] => return .store (← readMemory .word (base + offset * 2))
  | 0x4a, [base, offset] => return .store (← readMemory .byte (base + offset))
  | 0x4c, [base, offset, v] => do
    writeMemory .dword (base + offset * 4) v
    return .control .next
  | 0x4d, [base, offset, v] => do
    writeMemory .word (base + offset * 2) v
    return .control .next
  | 0x4e, [base, offset, v] => do
    writeMemory .byte (base + offset) v
    return .control .next
  | 0x54, [count] => do
    copyStack count
    return .control .next
  | 0x70, [v] | 0x73, [v] => do
    putChar v
    return .control .next
  | 0x71, [v] => do
    putNumber v
    return .control .next
  | 0x72, [v] => do
    putString v
    return .control .next
  | 0x102, [] => return .store (← memorySize)
  | 0x120, [] => halt
  | 0x126, [] => do
    restoreUndo
    return .control .next
  | 0x130, [selector, count] => return .store (← request selector count)
  | 0x160, [address] => return .store (← invoke address [])
  | 0x161, [address, x] => return .store (← invoke address [x])
  | 0x162, [address, x, y] => return .store (← invoke address [x, y])
  | 0x163, [address, x, y, z] => return .store (← invoke address [x, y, z])
  | _, _ => fail (.defect .operandsMissing)

/-- The width of memory accesses: 16 bits for `copys`, 8 bits for `copyb`, else 32 bits. -/
def Instr.width (i : Instr) : Width :=
  match i.opcode.number with
  | 0x41 => .word
  | 0x42 => .byte
  | _ => .dword

/-- **The effect of an instruction.** -/
def Instr.exec (i : Instr) : Eval σ Control := do
  let vs ← i.loads.mapM (·.load s i.width)
  let o ← i.compute lab invoke vs
  i.conclude s i.width o

end Rules

/-! ## Operations by action

The opcode table sorts the opcodes into families with an action each. -/

/-- The result of arithmetic. -/
def ArithOp.result : ArithOp → UInt32 → UInt32 → Eval σ UInt32
  | add, l, r => return l + r
  | sub, l, r => return l - r
  | mul, l, r => return l * r
  | div, l, r => signedDivision (· / ·) l r
  | mod, l, r => signedDivision (· % ·) l r

/-- Whether a branch is taken. -/
def CompareOp.test : CompareOp → UInt32 → UInt32 → Bool
  | eq, l, r => l = r
  | ne, l, r => l ≠ r
  | lt, l, r => l.toInt32 < r.toInt32
  | le, l, r => l.toInt32 ≤ r.toInt32
  | gt, l, r => l.toInt32 > r.toInt32
  | ge, l, r => l.toInt32 ≥ r.toInt32

/-- The address of an array element. -/
def Width.element : Width → UInt32 → UInt32 → UInt32
  | byte, base, offset => base + offset
  | word, base, offset => base + offset * 2
  | dword, base, offset => base + offset * 4

namespace Action

variable (lab : UInt32 → Label) (invoke : UInt32 → List UInt32 → Eval σ UInt32) (i : Instr)

/-- The operation of an action. -/
def compute (a : Action) (vs : List UInt32) : Eval σ Outcome :=
  match a with
  | nop => nullary (return .control .next) vs
  | arith op => binary (fun l r => return .store (← op.result l r)) vs
  | negate => unary (fun v => return .store (-v)) vs
  | jump => unary (fun offset => return .control (leap lab i.next offset)) vs
  | branchZero op => binary (fun v offset => return i.branchIf lab (op.test v 0) offset) vs
  | branch op => ternary (fun l r offset => return i.branchIf lab (op.test l r) offset) vs
  | call => vs |> binary fun address count => do
    let args ← i.arguments count
    return .store (← invoke address args)
  | callFixed _ => headed (fun address args => return .store (← invoke address args)) vs
  | ret => unary (fun v => return .control (.ret v)) vs
  | copy w => unary (fun v => return .store (w.truncate v)) vs
  | signExtend w => unary (fun v => return .store (w.signExtend v)) vs
  | loadElement w => vs |> binary fun base offset =>
    return .store (← readMemory w (w.element base offset))
  | storeElement w => vs |> ternary fun base offset v => do
    writeMemory w (w.element base offset) v
    return .control .next
  | copyStack => vs |> unary fun count => do
    Eval.copyStack count
    return .control .next
  | putChar => vs |> unary fun v => do
    Eval.putChar v
    return .control .next
  | putNumber => vs |> unary fun v => do
    Eval.putNumber v
    return .control .next
  | putString => vs |> unary fun v => do
    Eval.putString v
    return .control .next
  | memorySize => nullary (return .store (← Eval.memorySize)) vs
  | quit => nullary halt vs
  | restoreUndo => vs |> nullary do
    Eval.restoreUndo
    return .control .next
  | glk => binary (fun selector count => return .store (← request selector count)) vs

/-- The width of the memory accesses of an action. -/
def width : Action → Width
  | copy w => w
  | _ => .dword

/-- The number of operands that an action loads. -/
def loadCount : Action → Nat
  | nop | memorySize | quit | restoreUndo => 0
  | negate | jump | ret | copy _ | signExtend _ | copyStack | putChar | putNumber | putString => 1
  | arith _ | branchZero _ | call | loadElement _ | glk => 2
  | branch _ | storeElement _ => 3
  | callFixed n => n + 1

end Action

theorem Instr.compute_of_action {i : Instr} {a : Action} (hi : i.opcode ∈ Opcode.table)
    (ha : i.opcode.action = some a) (lab : UInt32 → Label)
    (invoke : UInt32 → List UInt32 → Eval σ UInt32) {vs : List UInt32}
    (hv : vs.length = a.loadCount) :
    i.compute lab invoke vs = a.compute lab invoke i vs ∧ i.width = a.width := by
  obtain ⟨opcode, loads, stores, address, next⟩ := i
  dsimp only at hi ha
  fin_cases hi <;> cases ha <;>
    rcases vs with _ | ⟨v₁, _ | ⟨v₂, _ | ⟨v₃, _ | ⟨v₄, _ | ⟨_, _⟩⟩⟩⟩⟩ <;>
    first
    | exact ⟨rfl, rfl⟩
    | simp [Action.loadCount] at hv

theorem Instr.exec_of_action {i : Instr} {a : Action} (hi : i.opcode ∈ Opcode.table)
    (ha : i.opcode.action = some a) (hl : i.loads.length = a.loadCount) (s : Scope)
    (lab : UInt32 → Label) (invoke : UInt32 → List UInt32 → Eval σ UInt32) :
    i.exec s lab invoke = (do
      let vs ← i.loads.mapM (·.load s a.width)
      let o ← a.compute lab invoke i vs
      i.conclude s a.width o) := by
  have hwidth : i.width = a.width :=
    (i.compute_of_action hi ha lab invoke (List.length_replicate (a := 0))).2
  funext m
  rw [Instr.exec, hwidth, bind_apply, bind_apply]
  rcases hvs : i.loads.mapM (·.load s a.width) m with _ | ⟨_ | vs, m'⟩
  · rfl
  · rfl
  · have hlength : vs.length = a.loadCount := (length_of_mapM hvs).trans hl
    dsimp only
    rw [(i.compute_of_action hi ha lab invoke hlength).1]

end StoryVM
