import StoryVM.Instr.Lowering
import StoryVM.Ir.Draft

/-! # Binding instructions to statements

A binder collects the statements of a routine instruction by instruction. Every instruction opens
with the label of its address; a jump creates the label of its target if there is none yet. Labels
that nothing needs are dropped when the body is finished. -/

namespace StoryVM

/-- **A routine being bound.** -/
structure Binder where
  /-- The address of the routine. -/
  routine : UInt32
  scope : Scope
  draft : Draft := {}
  /-- The label of each address that has one. -/
  labels : Std.TreeMap UInt32 Label := ∅

namespace Binder

/-- The label of an address, new if need be. -/
def labelAt (b : Binder) (address : UInt32) : Label × Binder :=
  match b.labels.get? address with
  | some l => (l, b)
  | none =>
    let (l, draft) := b.draft.newLabel
    (l, { b with draft := draft, labels := b.labels.insert address l })

/-- Places the label of an address at the current position. -/
def place (b : Binder) (address : UInt32) : Except Fault Binder := do
  let (l, b) := b.labelAt address
  return { b with draft := ← b.draft.mark l }

/-- Appends a statement. -/
def add (b : Binder) (s : Stmt) : Binder := { b with draft := b.draft.add s }

/-- Appends the statement of an effect. -/
def append (b : Binder) : Effect → Binder
  | .nop => b
  | .stmt s => b.add s
  | .jump target =>
    let (l, b) := b.labelAt target
    b.add (.jump l)
  | .branch cond target =>
    let (l, b) := b.labelAt target
    b.add (.branch cond (.jump l))

/-- **Binds an instruction**: places its label, then appends its statement. If the label is placed
already nothing changes; if the instruction has no meaning only the label stays. -/
def bind (b : Binder) (i : Instr) : Except Fault Unit × Binder :=
  match b.place i.address with
  | .error fault => (.error fault, b)
  | .ok b =>
    match b.scope.lower i with
    | .error cause => (.error (.decode b.routine cause), b)
    | .ok effect => (.ok (), b.append effect)

/-- Binds instructions up to the first that fails. -/
def bindAll (b : Binder) : List Instr → Except Fault Binder
  | [] => .ok b
  | i :: rest =>
    match b.bind i with
    | (.ok (), b) => b.bindAll rest
    | (.error fault, _) => .error fault

/-- The lowest address that was jumped to and never bound. -/
def stray? (b : Binder) : Option UInt32 :=
  (b.labels.toList.find? fun p => !b.draft.isMarked p.2).map (·.1)

/-- **Finishes the body.** -/
def finish (b : Binder) : Except Fault Body :=
  match b.stray? with
  | some target => .error (.decode b.routine (.invalidBranchTarget target))
  | none => b.draft.finish

end Binder

end StoryVM
