import StoryVM.Fault
import StoryVM.Json

/-! # Execution limits

A machine stops a guest program that nests its calls too deeply or enters too many blocks. Limits
can be read from JSON text and written as such: an object with the fields `max_call_depth` and
`max_steps`, or an array of the two. What is missing takes its default. -/

namespace StoryVM

/-- **Execution limits.** -/
structure Limits where
  /-- The greatest number of nested calls. -/
  maxDepth : Nat := 1000
  /-- The greatest number of blocks entered in the life of a machine, if there is one. -/
  maxSteps : Option Nat := none
  deriving DecidableEq, Repr

namespace Limits

/-- A natural number below `2 ^ 64`. -/
def word? : Json → Option Nat
  | .number (some n) => if n ≤ 0xFFFFFFFFFFFFFFFF then some n else none
  | _ => none

/-- A natural number below `2 ^ 64`, or null for none. -/
def optionalWord? : Json → Option (Option Nat)
  | .null => some none
  | v => some <$> word? v

/-- The fields of limits seen so far. -/
structure Fields where
  maxDepth : Option Nat := none
  maxSteps : Option (Option Nat) := none

/-- Takes one field. A known field may come once; others are skipped. -/
def Fields.add (f : Fields) : Option String × Json → Option Fields
  | (none, _) => none
  | (some key, v) =>
    if key = "max_call_depth" then
      if f.maxDepth.isSome then none else (fun n => { f with maxDepth := some n }) <$> word? v
    else if key = "max_steps" then
      if f.maxSteps.isSome then none
      else (fun n => { f with maxSteps := some n }) <$> optionalWord? v
    else some f

/-- The limits that a JSON value describes. -/
def ofJson? : Json → Option Limits
  | .object fields => do
    let f ← fields.foldlM Fields.add {}
    return { maxDepth := f.maxDepth.getD 1000, maxSteps := f.maxSteps.getD none }
  | .array [] => some {}
  | .array [d] => do return { maxDepth := ← word? d }
  | .array [d, s] => do return { maxDepth := ← word? d, maxSteps := ← optionalWord? s }
  | _ => none

/-- **Reads limits** from JSON text. At least one call must be allowed. -/
def parse (text : String) : Except Fault Limits :=
  match (Json.parse? text).bind ofJson? with
  | none => .error (.invalidLimits .unreadable)
  | some l => if l.maxDepth = 0 then .error (.invalidLimits .zeroDepth) else .ok l

/-- **Writes limits** as JSON text. -/
def render (l : Limits) : String :=
  "\x7b\"max_call_depth\":" ++ toString l.maxDepth ++ ",\"max_steps\":"
    ++ l.maxSteps.elim "null" toString ++ "\x7d"

end Limits

end StoryVM
