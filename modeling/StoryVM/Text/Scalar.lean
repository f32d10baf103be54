/-! # Code points

Guest programs name characters by 32-bit numbers. A number that is no Unicode scalar value stands
for the replacement character. -/

namespace StoryVM.Text

/-- The character with code point `n`, or U+FFFD if there is none. -/
def scalar (n : UInt32) : Char :=
  if n.toNat.isValidChar then Char.ofNat n.toNat else '\uFFFD'

end StoryVM.Text
