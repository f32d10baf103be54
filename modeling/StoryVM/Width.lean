/-! # Access widths

Memory accesses, locals and conversions are one, two or four bytes wide. A value is always held in
32 bits; narrowing it to a width keeps the low bytes and fills the rest with zeros (`truncate`) or
with copies of the sign bit (`signExtend`). -/

namespace StoryVM

/-- The width of an access: 8, 16 or 32 bits. -/
inductive Width where
  | byte
  | word
  | dword
  deriving DecidableEq, Repr, Inhabited

namespace Width

/-- The width in bytes. -/
def bytes : Width → Nat
  | byte => 1
  | word => 2
  | dword => 4

/-- The width named by a size byte of a locals layout. -/
def ofBytes? : UInt8 → Option Width
  | 1 => some byte
  | 2 => some word
  | 4 => some dword
  | _ => none

/-- The low bytes of `v`, zero-extended to 32 bits. -/
def truncate (w : Width) (v : UInt32) : UInt32 :=
  match w with
  | byte => v &&& 0xff
  | word => v &&& 0xffff
  | dword => v

/-- The low bytes of `v`, sign-extended to 32 bits. -/
def signExtend (w : Width) (v : UInt32) : UInt32 :=
  match w with
  | byte => v.toUInt8.toInt8.toInt32.toUInt32
  | word => v.toUInt16.toInt16.toInt32.toUInt32
  | dword => v

/-- **Conversion** to a width and back to 32 bits, with or without the sign. -/
def convert (w : Width) (signed : Bool) (v : UInt32) : UInt32 :=
  if signed then w.signExtend v else w.truncate v

theorem truncate_truncate (w : Width) (v : UInt32) :
    w.truncate (w.truncate v) = w.truncate v := by
  cases w <;> simp [truncate, UInt32.and_assoc]

theorem bytes_pos (w : Width) : 0 < w.bytes := by cases w <;> decide

theorem bytes_le_four (w : Width) : w.bytes ≤ 4 := by cases w <;> decide

end Width

end StoryVM
