import StoryVM.Fault

/-! # Call frames

A frame holds the locals of one running routine and the position of the value stack at its start. A
local keeps only the low bytes of what is written to it. -/

namespace StoryVM

/-- A local variable's storage: its width, and a value that fits it. -/
structure Slot where
  width : Width
  value : UInt32
  fits : width.truncate value = value
  deriving DecidableEq, Repr

/-- The slot of a width that holds the low bytes of a value. -/
def Slot.holding (w : Width) (v : UInt32) : Slot := ⟨w, w.truncate v, w.truncate_truncate v⟩

/-- **A call frame.** -/
structure Frame where
  slots : Array Slot
  /-- The stack pointer when the frame was made. -/
  base : Nat
  deriving DecidableEq, Repr

namespace Frame

/-- The frame for a list of locals, all zero. -/
def make (locals : List Local) (base : Nat) : Frame :=
  ⟨(locals.map fun v => .holding v.width 0).toArray, base⟩

/-- The number of locals. -/
def size (f : Frame) : Nat := f.slots.size

/-- Reads a local. -/
def read (f : Frame) (index : Nat) : Except Fault UInt32 :=
  match f.slots[index]? with
  | some slot => .ok slot.value
  | none => .error (.localOutOfRange index f.size)

/-- Writes a local, narrowing the value to its width. -/
def write (f : Frame) (index : Nat) (value : UInt32) : Except Fault Frame :=
  match f.slots[index]? with
  | some slot =>
    .ok { f with slots := f.slots.setIfInBounds index (.holding slot.width value) }
  | none => .error (.localOutOfRange index f.size)

/-- The slots with the first of them set to arguments, as far as both reach. -/
def fill : List Slot → List UInt32 → List Slot
  | slot :: slots, v :: args => .holding slot.width v :: fill slots args
  | slots, _ => slots

/-- Passes arguments in the first locals; those without a local are dropped. -/
def passArguments (f : Frame) (args : List UInt32) : Frame :=
  { f with slots := (fill f.slots.toList args).toArray }

end Frame

end StoryVM
