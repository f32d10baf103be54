import StoryVM.Bytes
import StoryVM.Fault

/-! # The value stack

A stack of bytes with a fixed capacity. Guest programs push and pop big-endian values of any width;
the bytes below the pointer are the content. Bytes above the pointer keep their last values until
they are pushed over, so a pointer that is set forward uncovers them again. -/

namespace StoryVM

/-- **The value stack.** -/
structure Stack where
  /-- The storage, as long as the capacity. -/
  bytes : Array UInt8
  /-- The number of bytes in use. -/
  pointer : Nat
  /-- The pointer stays inside the storage. -/
  pointer_le : pointer ≤ bytes.size
  deriving DecidableEq, Repr

namespace Stack

/-- The empty stack of a capacity. -/
def empty (capacity : Nat) : Stack := ⟨Array.replicate capacity 0, 0, Nat.zero_le _⟩

/-- The capacity in bytes. -/
def capacity (s : Stack) : Nat := s.bytes.size

/-- The bytes below the pointer, bottom first. -/
def content (s : Stack) : List UInt8 := Bytes.window s.bytes 0 s.pointer

/-- Pushes bytes, all or none. -/
def pushBytes (s : Stack) (new : List UInt8) : Except Fault Stack :=
  if h : s.pointer + new.length ≤ s.capacity then
    .ok ⟨Bytes.splice s.bytes s.pointer new, s.pointer + new.length,
      (Bytes.size_splice s.bytes s.pointer new).symm ▸ h⟩
  else .error (.stackOverflow s.pointer new.length s.capacity)

/-- **Pushes** the low bytes of a value. -/
def push (s : Stack) (w : Width) (value : UInt32) : Except Fault Stack :=
  s.pushBytes (Bytes.encode w value)

/-- **Pops** a value, zero-extended to 32 bits. -/
def pop (s : Stack) (w : Width) : Except Fault (UInt32 × Stack) :=
  if w.bytes ≤ s.pointer then
    let start := s.pointer - w.bytes
    .ok (Bytes.decode (Bytes.window s.bytes start w.bytes),
      ⟨s.bytes, start, Nat.le_trans (Nat.sub_le _ _) s.pointer_le⟩)
  else .error (.stackUnderflow s.pointer w.bytes)

/-- The bytes that `count` dwords take, as reported in faults: at most `2 ^ 32 - 1`. -/
def reportedBytes (count : UInt32) : Nat := min (4 * count.toNat) 0xFFFFFFFF

/-- **Repeats** the top `count` dwords, in their order. -/
def copyDwords (s : Stack) (count : UInt32) : Except Fault Stack :=
  let size := 4 * count.toNat
  if size ≤ s.pointer then s.pushBytes (Bytes.window s.bytes (s.pointer - size) size)
  else .error (.stackUnderflow s.pointer (reportedBytes count))

/-- **Sets the pointer** to a position inside the storage. -/
def restore (s : Stack) (pointer : Nat) : Except Fault Stack :=
  if h : pointer ≤ s.capacity then .ok ⟨s.bytes, pointer, h⟩
  else .error (.stackOverflow s.pointer (pointer - s.pointer) s.capacity)

/-- Pops dwords, the first popped first in the list. -/
def popDwords (s : Stack) : Nat → Except Fault (List UInt32 × Stack)
  | 0 => .ok ([], s)
  | n + 1 => do
    let (v, s) ← s.pop .dword
    let (rest, s) ← popDwords s n
    return (v :: rest, s)

/-- **Pops the arguments of a call.** Nothing is popped unless all are there. -/
def popArguments (s : Stack) (count : UInt32) : Except Fault (List UInt32 × Stack) :=
  if 4 * count.toNat ≤ s.pointer then s.popDwords count.toNat
  else .error (.stackUnderflow s.pointer (reportedBytes count))

/-- Pushes dwords in the order of the list, up to the first that does not fit. The stack that comes
back holds those that did. -/
def pushDwords (s : Stack) : List UInt32 → Except Fault Unit × Stack
  | [] => (.ok (), s)
  | v :: rest =>
    match s.push .dword v with
    | .ok s => s.pushDwords rest
    | .error fault => (.error fault, s)

end Stack

end StoryVM
