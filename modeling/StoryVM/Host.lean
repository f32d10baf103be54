import StoryVM.Fault
import StoryVM.Text.Scalar

/-! # Hosts

All that a guest program can reach outside memory and the value stack goes through its host: the
dispatch of input and output requests, undo, and the printing of text. A host is a type of states
with one operation per service. Requests may fail; a host that fails may still have changed its
state. -/

namespace StoryVM

/-- **The services of a host** with states `σ`. -/
class Host (σ : Type) where
  /-- Answers request `selector` with its arguments. -/
  glk (s : σ) (selector : UInt32) (args : List UInt32) : Except Fault UInt32 × σ
  /-- Goes back to the last saved state. -/
  restoreUndo (s : σ) : Except Fault Unit × σ
  /-- Prints the character with a code point. -/
  putChar (s : σ) (code : UInt32) : σ
  /-- Prints a signed decimal number. -/
  putNumber (s : σ) (value : Int32) : σ
  /-- Prints a text. -/
  putString (s : σ) (text : String) : σ

/-- The host that answers every request with 0 and prints nothing. -/
structure Silent where
  deriving DecidableEq, Repr

instance : Host Silent where
  glk s _ _ := (.ok 0, s)
  restoreUndo s := (.ok (), s)
  putChar s _ := s
  putNumber s _ := s
  putString s _ := s

/-- The host that writes down everything and answers every request with one value. -/
structure Recorder where
  /-- The answer to every request. -/
  answer : UInt32 := 0
  /-- All text printed. -/
  output : String := ""
  /-- The requests, with their arguments. -/
  requests : Array (UInt32 × List UInt32) := #[]
  /-- The number of undo requests. -/
  undos : Nat := 0
  deriving DecidableEq, Repr

instance : Host Recorder where
  glk s selector args := (.ok s.answer, { s with requests := s.requests.push (selector, args) })
  restoreUndo s := (.ok (), { s with undos := s.undos + 1 })
  putChar s code := { s with output := s.output.push (Text.scalar code) }
  putNumber s value := { s with output := s.output ++ toString value.toInt }
  putString s text := { s with output := s.output ++ text }

end StoryVM
