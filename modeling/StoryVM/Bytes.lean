import StoryVM.Width

/-! # Big-endian values in byte arrays

Memory and the value stack are byte arrays that hold 32-bit values most significant byte first.
`encode` lists the low bytes of a value, `decode` reads such a list back, `window` copies a stretch
of an array out and `splice` writes one in. Positions outside the array read as zero and are not
written; callers check their ranges first.

* Reading back a written value gives it narrowed to the width (`decode_encode`).
* A stretch that is written stands where it fits, and nothing else changes (`getElem?_splice`). -/

namespace StoryVM.Bytes

/-- The low bytes of `v`, most significant first. -/
def encode (w : Width) (v : UInt32) : List UInt8 :=
  match w with
  | .byte => [v.toUInt8]
  | .word => [(v / 0x100).toUInt8, v.toUInt8]
  | .dword => [(v / 0x1000000).toUInt8, (v / 0x10000).toUInt8, (v / 0x100).toUInt8, v.toUInt8]

/-- The value of a list of bytes, most significant first. -/
def decode (bytes : List UInt8) : UInt32 :=
  bytes.foldl (fun acc b => acc * 0x100 + b.toUInt32) 0

/-- The `count` bytes from position `start` on. -/
def window (bytes : Array UInt8) (start count : Nat) : List UInt8 :=
  (List.range count).map fun k => bytes.getD (start + k) 0

/-- Overwrites the bytes from position `start` on. -/
def splice (bytes : Array UInt8) (start : Nat) : List UInt8 → Array UInt8
  | [] => bytes
  | b :: rest => splice (bytes.setIfInBounds start b) (start + 1) rest

@[simp] theorem length_encode (w : Width) (v : UInt32) : (encode w v).length = w.bytes := by
  cases w <;> rfl

@[simp] theorem length_window (bytes : Array UInt8) (start count : Nat) :
    (window bytes start count).length = count := by
  simp [window]

@[simp] theorem size_splice (bytes : Array UInt8) (start : Nat) (new : List UInt8) :
    (splice bytes start new).size = bytes.size := by
  induction new generalizing bytes start with
  | nil => rfl
  | cons b rest ih => simp [splice, ih]

/-- Reading back a written value gives its low bytes. -/
@[simp] theorem decode_encode (w : Width) (v : UInt32) : decode (encode w v) = w.truncate v := by
  have hv := v.toNat_lt
  apply UInt32.toNat_inj.1
  cases w
  · have := Nat.and_two_pow_sub_one_eq_mod v.toNat 8
    simp_all [encode, decode, Width.truncate]
  · have := Nat.and_two_pow_sub_one_eq_mod v.toNat 16
    simp_all [encode, decode, Width.truncate]
    omega
  · simp [encode, decode, Width.truncate]
    omega

/-- What stands where after a stretch has been written. -/
theorem getElem?_splice (bytes : Array UInt8) (start : Nat) (new : List UInt8) (k : Nat)
    (h : start + new.length ≤ bytes.size) :
    (splice bytes start new)[k]? =
      if start ≤ k ∧ k < start + new.length then new[k - start]? else bytes[k]? := by
  induction new generalizing bytes start with
  | nil => rw [splice, if_neg (by simp only [List.length_nil]; omega)]
  | cons b rest ih =>
    simp only [List.length_cons] at h
    rw [splice, ih _ _ (by rw [Array.size_setIfInBounds]; omega), Array.getElem?_setIfInBounds]
    grind

end StoryVM.Bytes
