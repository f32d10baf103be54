import StoryVM.Ir.Transform

/-! # Bodies and their normal form

A body is the list of statements of one routine, with its number of labels and its locals.
`Body.normalize` brings a list of statements into normal form:

* labels that nothing needs are dropped (`prune`); a label is needed if a jump, direct or guarded,
  names it, or if it directly follows a branch (`neededLabels`);
* the labels that are left are numbered from 0 in the order of their statements (`numbering`), and
  every label number is renamed accordingly;
* a label 0 is put in front if the first statement is no label. -/

namespace StoryVM

/-- The statements, the number of labels and the locals of a routine. -/
structure Body where
  stmts : List Stmt
  labelCount : Nat
  locals : List Local
  deriving DecidableEq, Repr

namespace Body

/-- The labels of the body, in statement order. -/
def labels (b : Body) : List Label := List.range b.labelCount

/-- The label of the first statement, if it is a label. -/
def leadingLabel? (stmts : List Stmt) : Option Label := stmts.head?.bind Stmt.label?

/-- **The labels that must stay**: targets of jumps and of guarded jumps, and a label that directly
follows a branch. -/
def neededLabels : List Stmt → List Label
  | [] => []
  | .jump l :: rest => l :: neededLabels rest
  | .branch _ guarded :: rest =>
    guarded.jump?.toList ++ (leadingLabel? rest).toList ++ neededLabels rest
  | _ :: rest => neededLabels rest

/-- Drops the label statements of labels outside `needed`. -/
def prune (needed : List Label) (stmts : List Stmt) : List Stmt :=
  stmts.filter fun
    | .label l => needed.contains l
    | _ => true

/-- One step of the numbering: a label statement takes the next number. -/
def numberStep (acc : Renaming × Nat) : Stmt → Renaming × Nat
  | .label l => (acc.1.insert l acc.2, acc.2 + 1)
  | _ => acc

/-- The numbering of the label statements from `first` on, and the next free number. If a label has
several statements, the last one counts. -/
def numbering (first : Nat) (stmts : List Stmt) : Renaming × Nat :=
  stmts.foldl numberStep ({}, first)

/-- **The normal form** of a list of statements. -/
def normalize (stmts : List Stmt) (locals : List Local) : Body :=
  let kept := prune (neededLabels stmts) stmts
  let lead : List Stmt := if (leadingLabel? kept).isSome then [] else [.label 0]
  let numbers := numbering lead.length kept
  { stmts := lead ++ kept.map numbers.1.rename, labelCount := numbers.2, locals := locals }

end Body

end StoryVM
