import StoryVM.Json.Token

/-! # JSON values

Strict JSON text as a tree. The tokens are taken one by one, with the containers that are still open
kept in a list, so that nesting costs no recursion. -/

namespace StoryVM

/-- **JSON values.** Numbers and strings keep what their tokens keep. -/
inductive Json where
  | null
  | bool (value : Bool)
  | number (value : Option Nat)
  | text (value : Option String)
  | array (items : List Json)
  | object (fields : List (Option String × Json))
  deriving Repr

namespace Json

/-- The fields of an object so far, last first. -/
abbrev Fields := List (Option String × Json)

/-- A container that is still open, waiting for its next value; its parts so far, last first. -/
inductive Open where
  | array (items : List Json)
  | object (fields : Fields) (key : Option String)

/-- What may come next. -/
inductive Mode where
  /-- A value. -/
  | value
  /-- A value, or the end of the array just opened. -/
  | firstItem
  /-- A key, or the end of the object just opened. -/
  | firstKey
  /-- A key of the object with these fields. -/
  | key (fields : Fields)
  /-- The colon after a key of the object with these fields. -/
  | colon (fields : Fields) (key : Option String)
  /-- What follows a complete value. -/
  | done (value : Json)

/-- A text part way through: the open containers, innermost first, and what may come next. -/
structure Reader where
  opened : List Open := []
  mode : Mode := .value

namespace Reader

/-- Takes the first token of a value. -/
def startValue (r : Reader) : Token → Option Reader
  | .null => some { r with mode := .done .null }
  | .bool b => some { r with mode := .done (.bool b) }
  | .number n => some { r with mode := .done (.number n) }
  | .text s => some { r with mode := .done (.text s) }
  | .openBracket => some ⟨.array [] :: r.opened, .firstItem⟩
  | .openBrace => some { r with mode := .firstKey }
  | _ => none

/-- Takes the token after a complete value. -/
def afterValue (v : Json) : List Open → Token → Option Reader
  | .array items :: outer, .comma => some ⟨.array (v :: items) :: outer, .value⟩
  | .array items :: outer, .closeBracket => some ⟨outer, .done (.array (v :: items).reverse)⟩
  | .object fields key :: outer, .comma => some ⟨outer, .key ((key, v) :: fields)⟩
  | .object fields key :: outer, .closeBrace =>
    some ⟨outer, .done (.object ((key, v) :: fields).reverse)⟩
  | _, _ => none

/-- Takes one token. -/
def step (r : Reader) (t : Token) : Option Reader :=
  match r.mode, t with
  | .value, t => r.startValue t
  | .firstItem, .closeBracket => some ⟨r.opened.tail, .done (.array [])⟩
  | .firstItem, t => r.startValue t
  | .firstKey, .closeBrace => some { r with mode := .done (.object []) }
  | .firstKey, .text k => some { r with mode := .colon [] k }
  | .key fields, .text k => some { r with mode := .colon fields k }
  | .colon fields k, .colon => some ⟨.object fields k :: r.opened, .value⟩
  | .done v, t => afterValue v r.opened t
  | _, _ => none

end Reader

/-- **Reads a text** that is one JSON value with nothing after it. -/
def parse? (text : String) : Option Json := do
  let tokens ← tokens? text
  let r ← tokens.foldlM Reader.step {}
  match r with
  | ⟨[], .done v⟩ => return v
  | _ => none

end Json

end StoryVM
