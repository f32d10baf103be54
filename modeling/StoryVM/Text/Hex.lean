/-! # Hexadecimal text

Numbers in messages are written in lower-case hexadecimal, either with no leading zeros or padded
with zeros to a fixed number of digits. -/

namespace StoryVM.Text

/-- The lower-case hexadecimal digits of `n`, without leading zeros. -/
def hex (n : Nat) : String := String.ofList (Nat.toDigits 16 n)

/-- The lower-case hexadecimal digits of `n`, with zeros in front up to `digits` digits. -/
def hexPadded (digits n : Nat) : String :=
  let text := Nat.toDigits 16 n
  String.ofList (List.replicate (digits - text.length) '0' ++ text)

end StoryVM.Text
