/-! # Names of basic blocks

The blocks of a body are one for each label, an entry before them and an exit after them. They are
listed in that order: the entry, the labels by number, the exit. -/

namespace StoryVM

/-- The name of a basic block. -/
inductive BlockId where
  | entry
  | label (index : Nat)
  | exit
  deriving DecidableEq, Repr

namespace BlockId

/-- The name as text. -/
def render : BlockId → String
  | entry => "entry"
  | label index => "block_" ++ toString index
  | exit => "exit"

/-- The order of blocks: the entry, the labels by number, the exit. -/
def before : BlockId → BlockId → Bool
  | entry, entry => false
  | entry, _ => true
  | label i, label j => decide (i < j)
  | label _, exit => true
  | _, _ => false

/-- Inserts a block into a list in block order, unless it is there. -/
def insertOrdered (b : BlockId) : List BlockId → List BlockId
  | [] => [b]
  | c :: rest =>
    if b.before c then b :: c :: rest
    else if b = c then c :: rest
    else c :: insertOrdered b rest

/-- The blocks of a list in block order, each once. -/
def ordered (bs : List BlockId) : List BlockId := bs.foldr insertOrdered []

theorem mem_insertOrdered {a b : BlockId} {bs : List BlockId} :
    a ∈ insertOrdered b bs ↔ a = b ∨ a ∈ bs := by
  induction bs with
  | nil => simp [insertOrdered]
  | cons c rest ih =>
    unfold insertOrdered
    split
    · simp
    · split
      · next h => subst h; simp
      · simp only [List.mem_cons, ih]; exact or_left_comm

@[simp] theorem mem_ordered {a : BlockId} {bs : List BlockId} : a ∈ ordered bs ↔ a ∈ bs := by
  induction bs with
  | nil => simp [ordered]
  | cons b rest ih =>
    rw [ordered, List.foldr_cons, mem_insertOrdered, List.mem_cons]
    exact or_congr_right ih

end BlockId

end StoryVM
