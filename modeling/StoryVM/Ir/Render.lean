import StoryVM.Ir.Stmt
import StoryVM.Text.Record

/-! # The written form of statements

Messages about malformed bodies show the statement in question. It is written in constructor
notation: the name of the node, its positional parts in parentheses or its named parts in braces,
lists in brackets, and constants in signed decimal. -/

namespace StoryVM

open Text (record applied bracketed)

/-- The written form of a width. -/
def Width.render : Width → String
  | byte => "Byte"
  | word => "Word"
  | dword => "DWord"

/-- The written form of an arithmetic operator. -/
def ArithOp.render : ArithOp → String
  | add => "Add"
  | sub => "Sub"
  | mul => "Mul"
  | div => "Div"
  | mod => "Mod"

/-- The written form of a comparison. -/
def CompareOp.render : CompareOp → String
  | eq => "Eq"
  | ne => "Ne"
  | lt => "Lt"
  | le => "Le"
  | gt => "Gt"
  | ge => "Ge"

/-- The written form of a local. -/
def Local.render (v : Local) : String :=
  record "Local" [("index", toString v.index), ("size", v.width.render)]

namespace Expr

mutual

/-- The written form of an expression. -/
def render : Expr → String
  | const value => applied "Constant" (toString value.toInt)
  | readLocal var => applied "ReadLocal" var.render
  | load width address =>
    record "ReadMemory" [("address", render address), ("size", width.render)]
  | arith op l r =>
    record "Arithmetic" [("op", op.render), ("left", render l), ("right", render r)]
  | compare op l r =>
    record "Comparison" [("op", op.render), ("left", render l), ("right", render r)]
  | convert width signed value =>
    record "Conversion"
      [("value", render value), ("size", width.render), ("signed", toString signed)]
  | call address args =>
    record "Call" [("address", render address), ("arguments", bracketed (renderAll args))]
  | callCounted address count =>
    record "CallWithArgCount" [("address", render address), ("count", render count)]
  | pop => "StackPop"
  | glk args =>
    record "Dispatch" [("function", "Glk"), ("arguments", bracketed (renderAll args))]
  | memorySize => "GetMemorySize"

/-- The written forms of a list of expressions. -/
def renderAll : List Expr → List String
  | [] => []
  | e :: rest => render e :: renderAll rest

end

end Expr

/-- The written form of a label. -/
def renderLabel (l : Label) : String := applied "Label" (toString l)

/-- The written form of a statement. -/
def Stmt.render : Stmt → String
  | label l => applied "Label" (renderLabel l)
  | eval value => applied "Expression" value.render
  | writeLocal var value => record "WriteLocal" [("local", var.render), ("value", value.render)]
  | store width address value =>
    record "WriteMemory"
      [("address", address.render), ("value", value.render), ("size", width.render)]
  | push value => applied "StackPush" value.render
  | copyStack count => applied "StackCopy" count.render
  | jump l => applied "Jump" (renderLabel l)
  | branch cond guarded =>
    record "Branch" [("condition", cond.render), ("statement", render guarded)]
  | ret value => applied "Return" value.render
  | quit => "Quit"
  | putChar value => applied "OutputChar" value.render
  | putNumber value => applied "OutputNumber" value.render
  | putString address => applied "OutputString" address.render
  | restoreUndo => "RestoreUndo"

end StoryVM
