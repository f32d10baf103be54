/-! # JSON tokens

The words of strict JSON text. Of a number only its value as a natural number is kept, and only if
it is written with digits alone; of a string its text, and only if its escapes spell Unicode text (a
lone surrogate does not). Two tokens may touch: no two that a reader could confuse may follow each
other in JSON. -/

namespace StoryVM.Json

/-- **Tokens.** -/
inductive Token where
  | openBrace
  | closeBrace
  | openBracket
  | closeBracket
  | comma
  | colon
  | null
  | bool (value : Bool)
  | number (value : Option Nat)
  | text (value : Option String)
  deriving DecidableEq, Repr

/-- The blanks that may stand between tokens. -/
def isBlank (c : Char) : Bool := c = ' ' || c = '\n' || c = '\t' || c = '\r'

/-! ## Strings -/

/-- A piece of a string: a character, or a 16-bit unit given by an escape. -/
inductive Piece where
  | char (c : Char)
  | unit (n : Nat)
  deriving DecidableEq, Repr

/-- The value of a hexadecimal digit. -/
def hexDigit? (c : Char) : Option Nat :=
  if c.isDigit then some (c.toNat - '0'.toNat)
  else if 'a' ≤ c ∧ c ≤ 'f' then some (c.toNat - 'a'.toNat + 10)
  else if 'A' ≤ c ∧ c ≤ 'F' then some (c.toNat - 'A'.toNat + 10)
  else none

/-- The value of four hexadecimal digits. -/
def hexQuad? (a b c d : Char) : Option Nat := do
  return ((← hexDigit? a) * 16 + (← hexDigit? b)) * 256 + (← hexDigit? c) * 16 + (← hexDigit? d)

/-- The character that a one-letter escape stands for. -/
def escape? : Char → Option Char
  | '"' => some '"'
  | '\\' => some '\\'
  | '/' => some '/'
  | 'b' => some '\x08'
  | 'f' => some '\x0c'
  | 'n' => some '\n'
  | 'r' => some '\r'
  | 't' => some '\t'
  | _ => none

/-- The pieces of a string up to its closing quote, and what follows. -/
def pieces? : List Char → Option (List Piece × List Char)
  | [] => none
  | '"' :: rest => some ([], rest)
  | '\\' :: 'u' :: a :: b :: c :: d :: rest => do
    let n ← hexQuad? a b c d
    let (more, rest) ← pieces? rest
    return (.unit n :: more, rest)
  | '\\' :: c :: rest => do
    let e ← escape? c
    let (more, rest) ← pieces? rest
    return (.char e :: more, rest)
  | c :: rest => do
    if c = '\\' ∨ c.toNat < 0x20 then none
    let (more, rest) ← pieces? rest
    return (.char c :: more, rest)

/-- The text of a string: units above the basic plane come in pairs. -/
def text? : List Piece → Option (List Char)
  | [] => some []
  | .char c :: rest => (c :: ·) <$> text? rest
  | .unit high :: .unit low :: rest =>
    if 0xD800 ≤ high ∧ high < 0xDC00 then
      if 0xDC00 ≤ low ∧ low < 0xE000 then
        (Char.ofNat (0x10000 + (high - 0xD800) * 0x400 + (low - 0xDC00)) :: ·) <$> text? rest
      else none
    else if 0xDC00 ≤ high ∧ high < 0xE000 then none
    else (Char.ofNat high :: ·) <$> text? (.unit low :: rest)
  | .unit n :: rest =>
    if 0xD800 ≤ n ∧ n < 0xE000 then none else (Char.ofNat n :: ·) <$> text? rest

/-! ## Numbers -/

/-- The value of decimal digits. -/
def natural (digits : List Char) : Nat :=
  digits.foldl (fun acc c => acc * 10 + (c.toNat - '0'.toNat)) 0

/-- The rest after one or more digits. -/
def skipDigits? (cs : List Char) : Option (List Char) :=
  match cs.span Char.isDigit with
  | ([], _) => none
  | (_ :: _, rest) => some rest

/-- The integer part of a number and what follows. A zero stands alone. -/
def integer? : List Char → Option (List Char × List Char)
  | '0' :: rest => some (['0'], rest)
  | cs =>
    match cs.span Char.isDigit with
    | ([], _) => none
    | (digits, rest) => some (digits, rest)

/-- The rest after an optional fraction, and whether there was one. -/
def fraction? : List Char → Option (Bool × List Char)
  | '.' :: rest => (true, ·) <$> skipDigits? rest
  | rest => some (false, rest)

/-- The rest after an optional exponent, and whether there was one. -/
def exponent? : List Char → Option (Bool × List Char)
  | c :: rest =>
    if c = 'e' ∨ c = 'E' then
      match rest with
      | '+' :: rest | '-' :: rest => (true, ·) <$> skipDigits? rest
      | rest => (true, ·) <$> skipDigits? rest
    else some (false, c :: rest)
  | [] => some (false, [])

/-- The unsigned number at the start of a text, as a natural number if it has neither fraction nor
exponent. -/
def number? (cs : List Char) : Option (Option Nat × List Char) := do
  let (digits, rest) ← integer? cs
  let (hasFraction, rest) ← fraction? rest
  let (hasExponent, rest) ← exponent? rest
  return (if hasFraction || hasExponent then none else some (natural digits), rest)

/-! ## Tokens -/

/-- The token at the start of a text, and what follows. -/
def token? : List Char → Option (Token × List Char)
  | '\x7b' :: rest => some (.openBrace, rest)
  | '\x7d' :: rest => some (.closeBrace, rest)
  | '[' :: rest => some (.openBracket, rest)
  | ']' :: rest => some (.closeBracket, rest)
  | ',' :: rest => some (.comma, rest)
  | ':' :: rest => some (.colon, rest)
  | 'n' :: 'u' :: 'l' :: 'l' :: rest => some (.null, rest)
  | 't' :: 'r' :: 'u' :: 'e' :: rest => some (.bool true, rest)
  | 'f' :: 'a' :: 'l' :: 's' :: 'e' :: rest => some (.bool false, rest)
  | '"' :: rest => do
    let (parts, rest) ← pieces? rest
    return (.text (String.ofList <$> text? parts), rest)
  | '-' :: rest => do
    let (_, rest) ← number? rest
    return (.number none, rest)
  | cs => do
    let (value, rest) ← number? cs
    return (.number value, rest)

/-- The tokens of a text of at most `fuel` characters. -/
def tokensWithin : (fuel : Nat) → List Char → Option (List Token)
  | _, [] => some []
  | 0, _ :: _ => none
  | fuel + 1, c :: rest =>
    if isBlank c then tokensWithin fuel rest
    else do
      let (t, rest) ← token? (c :: rest)
      (t :: ·) <$> tokensWithin fuel rest

/-- **The tokens of a text.** -/
def tokens? (text : String) : Option (List Token) :=
  tokensWithin text.length text.toList

end StoryVM.Json
