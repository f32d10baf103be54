/-! # Constructor notation

Values shown in messages are written as the name of a constructor with its positional part in
parentheses or its named parts in braces. -/

namespace StoryVM.Text

/-- A node with named parts: `Name { part: text, … }`. -/
def record (name : String) (parts : List (String × String)) : String :=
  name ++ " \x7b " ++ ", ".intercalate (parts.map fun p => p.1 ++ ": " ++ p.2) ++ " \x7d"

/-- A node with one positional part: `Name(text)`. -/
def applied (name part : String) : String := name ++ "(" ++ part ++ ")"

/-- A list: `[text, …]`. -/
def bracketed (items : List String) : String := "[" ++ ", ".intercalate items ++ "]"

end StoryVM.Text
