import StoryVM.Width

/-! # Expressions

The value-producing half of the intermediate form: trees over constants, locals, memory loads,
arithmetic, comparisons, conversions, routine calls, pops of the value stack and host dispatch.

* `Expr.children` lists the direct operands in the order in which they are evaluated.
* `ArithOp.apply?` and `CompareOp.holds` give the two families of operators their meaning.
* Equality of expressions is decidable (`Expr.eq_of_beq`, `Expr.beq_refl`). -/

namespace StoryVM

/-! ## Operators -/

/-- Two-operand arithmetic on 32-bit values. -/
inductive ArithOp where
  | add
  | sub
  | mul
  | div
  | mod
  deriving DecidableEq, Repr

/-- **Arithmetic.** Sums, differences and products wrap. Quotient and remainder read their operands
as signed, round toward zero, and have no value for a zero divisor. -/
def ArithOp.apply? (op : ArithOp) (l r : UInt32) : Option UInt32 :=
  match op with
  | add => some (l + r)
  | sub => some (l - r)
  | mul => some (l * r)
  | div => if r = 0 then none else some (l.toInt32 / r.toInt32).toUInt32
  | mod => if r = 0 then none else some (l.toInt32 % r.toInt32).toUInt32

/-- Signed comparisons. -/
inductive CompareOp where
  | eq
  | ne
  | lt
  | le
  | gt
  | ge
  deriving DecidableEq, Repr

/-- Whether the comparison holds. -/
def CompareOp.holds (op : CompareOp) (l r : Int32) : Bool :=
  match op with
  | eq => decide (l = r)
  | ne => decide (l ≠ r)
  | lt => decide (l < r)
  | le => decide (l ≤ r)
  | gt => decide (r < l)
  | ge => decide (r ≤ l)

/-- The comparison of two 32-bit values read as signed: 1 if it holds, 0 if not. -/
def CompareOp.apply (op : CompareOp) (l r : UInt32) : UInt32 :=
  if op.holds l.toInt32 r.toInt32 then 1 else 0

/-! ## Trees -/

/-- A local variable of a routine: its slot in the call frame and its declared width. -/
structure Local where
  index : Nat
  width : Width
  deriving DecidableEq, Repr

/-- **Expressions.** -/
inductive Expr where
  /-- A constant. -/
  | const (value : Int32)
  /-- The value of a local of the innermost frame. -/
  | readLocal (var : Local)
  /-- A load from memory. -/
  | load (width : Width) (address : Expr)
  /-- Arithmetic. -/
  | arith (op : ArithOp) (left right : Expr)
  /-- A comparison, 1 or 0. -/
  | compare (op : CompareOp) (left right : Expr)
  /-- A value narrowed to a width and extended back. -/
  | convert (width : Width) (signed : Bool) (value : Expr)
  /-- A call with a fixed list of arguments, first argument first. -/
  | call (address : Expr) (args : List Expr)
  /-- A call whose arguments are popped from the value stack when it runs. -/
  | callCounted (address count : Expr)
  /-- A dword popped from the value stack. -/
  | pop
  /-- A request to the host's input and output system. -/
  | glk (args : List Expr)
  /-- The current memory size. -/
  | memorySize
  deriving Repr, Inhabited

namespace Expr

/-- The constant with the given bit pattern. -/
def ofBits (v : UInt32) : Expr := .const v.toInt32

/-- The sum of two expressions. -/
def plus (l r : Expr) : Expr := .arith .add l r

/-- The difference of two expressions. -/
def minus (l r : Expr) : Expr := .arith .sub l r

/-- The product of two expressions. -/
def times (l r : Expr) : Expr := .arith .mul l r

/-- **The direct operands**, in the order of evaluation. -/
def children : Expr → List Expr
  | const _ | readLocal _ | pop | memorySize => []
  | load _ address => [address]
  | arith _ l r | compare _ l r => [l, r]
  | convert _ _ value => [value]
  | call address args => address :: args
  | callCounted address count => [address, count]
  | glk args => args

mutual

/-- The number of nodes. -/
def size : Expr → Nat
  | const _ | readLocal _ | pop | memorySize => 1
  | load _ address => size address + 1
  | arith _ l r | compare _ l r => size l + size r + 1
  | convert _ _ value => size value + 1
  | call address args => size address + sizeAll args + 1
  | callCounted address count => size address + size count + 1
  | glk args => sizeAll args + 1

/-- The number of nodes of a list of expressions. -/
def sizeAll : List Expr → Nat
  | [] => 0
  | e :: rest => size e + sizeAll rest

end

theorem size_eq (e : Expr) : e.size = sizeAll e.children + 1 := by
  cases e <;> simp only [size, children, sizeAll] <;> omega

/-! ## Equality -/

mutual

/-- Structural equality. -/
def beq : Expr → Expr → Bool
  | const a, const b => a == b
  | readLocal a, readLocal b => a == b
  | load v a, load w b => v == w && beq a b
  | arith o a b, arith p c d => o == p && beq a c && beq b d
  | compare o a b, compare p c d => o == p && beq a c && beq b d
  | convert v s a, convert w t b => v == w && s == t && beq a b
  | call a as, call b bs => beq a b && beqAll as bs
  | callCounted a b, callCounted c d => beq a c && beq b d
  | pop, pop => true
  | glk as, glk bs => beqAll as bs
  | memorySize, memorySize => true
  | _, _ => false

/-- Structural equality of lists of expressions. -/
def beqAll : List Expr → List Expr → Bool
  | [], [] => true
  | a :: as, b :: bs => beq a b && beqAll as bs
  | _, _ => false

end

mutual

theorem eq_of_beq : ∀ {a b : Expr}, beq a b = true → a = b
  | const _, b, h => by cases b <;> simp_all [beq]
  | readLocal _, b, h => by cases b <;> simp_all [beq]
  | load _ a, b, h => by
    cases b <;> simp only [beq, Bool.and_eq_true, beq_iff_eq, Bool.false_eq_true] at h
    rw [h.1, eq_of_beq h.2]
  | arith _ l r, b, h => by
    cases b <;> simp only [beq, Bool.and_eq_true, beq_iff_eq, Bool.false_eq_true] at h
    rw [h.1.1, eq_of_beq h.1.2, eq_of_beq h.2]
  | compare _ l r, b, h => by
    cases b <;> simp only [beq, Bool.and_eq_true, beq_iff_eq, Bool.false_eq_true] at h
    rw [h.1.1, eq_of_beq h.1.2, eq_of_beq h.2]
  | convert _ _ a, b, h => by
    cases b <;> simp only [beq, Bool.and_eq_true, beq_iff_eq, Bool.false_eq_true] at h
    rw [h.1.1, h.1.2, eq_of_beq h.2]
  | call a as, b, h => by
    cases b <;> simp only [beq, Bool.and_eq_true, Bool.false_eq_true] at h
    rw [eq_of_beq h.1, eq_of_beqAll h.2]
  | callCounted l r, b, h => by
    cases b <;> simp only [beq, Bool.and_eq_true, Bool.false_eq_true] at h
    rw [eq_of_beq h.1, eq_of_beq h.2]
  | pop, b, h => by cases b <;> simp_all [beq]
  | glk as, b, h => by
    cases b <;> simp only [beq, Bool.false_eq_true] at h
    rw [eq_of_beqAll h]
  | memorySize, b, h => by cases b <;> simp_all [beq]

theorem eq_of_beqAll : ∀ {as bs : List Expr}, beqAll as bs = true → as = bs
  | [], bs, h => by cases bs <;> simp_all [beqAll]
  | a :: as, bs, h => by
    cases bs <;> simp only [beqAll, Bool.and_eq_true, Bool.false_eq_true] at h
    rw [eq_of_beq h.1, eq_of_beqAll h.2]

end

mutual

theorem beq_refl : ∀ a : Expr, beq a a = true
  | const _ => by simp [beq]
  | readLocal _ => by simp [beq]
  | load _ a => by simp [beq, beq_refl a]
  | arith _ l r => by simp [beq, beq_refl l, beq_refl r]
  | compare _ l r => by simp [beq, beq_refl l, beq_refl r]
  | convert _ _ a => by simp [beq, beq_refl a]
  | call a as => by simp [beq, beq_refl a, beqAll_refl as]
  | callCounted l r => by simp [beq, beq_refl l, beq_refl r]
  | pop => rfl
  | glk as => by simp [beq, beqAll_refl as]
  | memorySize => rfl

theorem beqAll_refl : ∀ as : List Expr, beqAll as as = true
  | [] => rfl
  | a :: as => by simp [beqAll, beq_refl a, beqAll_refl as]

end

instance : DecidableEq Expr := fun a b =>
  if h : beq a b = true then .isTrue (eq_of_beq h)
  else .isFalse fun e => h (e ▸ beq_refl a)

end Expr

end StoryVM
