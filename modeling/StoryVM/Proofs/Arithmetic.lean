import Mathlib.Algebra.Order.Group.Unbundled.Int
import Mathlib.Data.Int.ModEq
import StoryVM.Machine.Exec

/-! # Arithmetic of words

Arithmetic on words is arithmetic on integers, modulo 2 ^ 32. The words are read in two's complement
(`signed`), and an operator does with words what its integer counterpart (`ArithOp.onInt`) does with
the numbers that they stand for (`ArithOp.signed_modEq_onInt`). Sums, differences and products come
out the same if the words are read without a sign (`ArithOp.onInt_modEq`). Quotients and remainders
do not: they are those of signed numbers, rounded toward zero.

* `DividesTo`: what the quotient and the remainder of two words have to be. They are that
  (`ArithOp.dividesTo`).
* `Op.exec_arith_signed`: what executing an arithmetic operation comes to, failures included. -/

namespace StoryVM

/-! ## Words as integers -/

/-- **The signed reading of a word**, in two's complement. -/
def signed (v : UInt32) : ℤ := if v.toNat < 2 ^ 31 then v.toNat else v.toNat - 2 ^ 32

theorem toInt_toInt32 (v : UInt32) : v.toInt32.toInt = signed v := by
  have h : v.toInt32.toInt = v.toBitVec.toInt := rfl
  rw [h, BitVec.toInt_eq_toNat_cond, UInt32.toNat_toBitVec, signed]
  split <;> split <;> omega

theorem signed_modEq_toNat (v : UInt32) : signed v ≡ v.toNat [ZMOD 2 ^ 32] := by
  unfold signed
  split
  · rfl
  · exact Int.sub_emod_right _ _

theorem signed_eq_zero_iff {v : UInt32} : signed v = 0 ↔ v = 0 := by
  have hv := v.toNat_lt
  rw [← UInt32.toNat_inj, UInt32.toNat_zero, signed]
  split <;> omega

/-- A word is the integer it is congruent to, modulo 2 ^ 32. -/
theorem toNat_eq_emod {v : UInt32} {x : ℤ} (h : signed v ≡ x [ZMOD 2 ^ 32]) :
    (v.toNat : ℤ) = x % 2 ^ 32 := by
  have hv := v.toNat_lt
  have hx : (v.toNat : ℤ) % 2 ^ 32 = x % 2 ^ 32 := (signed_modEq_toNat v).symm.trans h
  omega

/-! ## Operators on integers -/

namespace ArithOp

/-- **The integer counterpart** of an operator. Quotients are rounded toward zero. -/
def onInt : ArithOp → ℤ → ℤ → ℤ
  | add => (· + ·)
  | sub => (· - ·)
  | mul => (· * ·)
  | div => Int.tdiv
  | mod => Int.tmod

variable {op : ArithOp} {l r v : UInt32}

theorem fails_iff : op.apply? l r = none ↔ op ∈ [div, mod] ∧ r = 0 := by
  unfold ArithOp.apply?
  cases op <;> simp

theorem exists_value (l : UInt32) (h : ¬ (op ∈ [div, mod] ∧ r = 0)) :
    ∃ v, op.apply? l r = some v :=
  Option.ne_none_iff_exists'.mp fun hnone => h (fails_iff.mp hnone)

theorem toInt32_of_div (h : div.apply? l r = some v) : v.toInt32 = l.toInt32 / r.toInt32 := by
  obtain ⟨-, hv⟩ := Option.ite_none_left_eq_some.mp h
  cases hv
  rfl

theorem toInt32_of_mod (h : mod.apply? l r = some v) : v.toInt32 = l.toInt32 % r.toInt32 := by
  obtain ⟨-, hv⟩ := Option.ite_none_left_eq_some.mp h
  cases hv
  rfl

/-- **A remainder** always fits a word. -/
theorem signed_of_mod (h : mod.apply? l r = some v) : signed v = (signed l).tmod (signed r) := by
  rw [← toInt_toInt32, toInt32_of_mod h, Int32.toInt_mod, toInt_toInt32, toInt_toInt32]

/-- **A quotient** fits a word, except for that of the least number by `-1`. -/
theorem signed_of_div (h : div.apply? l r = some v)
    (hfits : ¬ (signed l = -2 ^ 31 ∧ signed r = -1)) :
    signed v = (signed l).tdiv (signed r) := by
  have hne : l.toInt32 ≠ Int32.minValue ∨ r.toInt32 ≠ -1 := by
    by_contra hboth
    obtain ⟨hl, hr⟩ := not_or.mp hboth
    rw [← toInt_toInt32, ← toInt_toInt32, not_not.mp hl, not_not.mp hr] at hfits
    exact hfits ⟨rfl, rfl⟩
  rw [← toInt_toInt32, toInt32_of_div h, ← toInt_toInt32, ← toInt_toInt32]
  obtain hl | hr := hne
  · exact Int32.toInt_div_of_ne_left _ _ hl
  · exact Int32.toInt_div_of_ne_right _ _ hr

/-- **Every operator has its integer meaning**, modulo 2 ^ 32. -/
theorem signed_modEq_onInt (h : op.apply? l r = some v) :
    signed v ≡ op.onInt (signed l) (signed r) [ZMOD 2 ^ 32] := by
  have hwrap {x : ℤ} (hx : v.toInt32.toInt = x.bmod (2 ^ 32)) : signed v ≡ x [ZMOD 2 ^ 32] := by
    rw [← toInt_toInt32, hx]
    exact Int.bmod_emod
  rw [← toInt_toInt32 l, ← toInt_toInt32 r]
  cases op with
  | add =>
    cases h
    exact hwrap (Int32.toInt_add _ _)
  | sub =>
    cases h
    exact hwrap (Int32.toInt_sub _ _)
  | mul =>
    cases h
    exact hwrap (Int32.toInt_mul _ _)
  | div =>
    refine hwrap ?_
    rw [toInt32_of_div h]
    exact Int32.toInt_div _ _
  | mod =>
    rw [toInt_toInt32, toInt_toInt32, signed_of_mod h]
    rfl

/-- Sums, differences and products respect congruence, so any reading of the operands will do. -/
theorem onInt_modEq (h : op ∈ [add, sub, mul]) {n x x' y y' : ℤ} (hx : x ≡ x' [ZMOD n])
    (hy : y ≡ y' [ZMOD n]) : op.onInt x y ≡ op.onInt x' y' [ZMOD n] := by
  cases op with
  | add => exact hx.add hy
  | sub => exact hx.sub hy
  | mul => exact hx.mul hy
  | div | mod => simp at h

end ArithOp

/-! ## Signed division -/

/-- **Signed division**: `l` divided by `r` comes to the quotient `q` and the remainder `m`. -/
structure DividesTo (l r q m : UInt32) : Prop where
  /-- Quotient and remainder give the dividend back. -/
  restores : signed q * signed r + signed m ≡ signed l [ZMOD 2 ^ 32]
  /-- The remainder is smaller than the divisor. -/
  abs_lt : |signed m| < |signed r|
  /-- The remainder is on the side of the dividend. -/
  sign_eq : signed m = 0 ∨ (signed m).sign = (signed l).sign
  /-- The quotient is rounded toward zero if it fits. -/
  truncates : ¬ (signed l = -2 ^ 31 ∧ signed r = -1) → signed q = (signed l).tdiv (signed r)
  /-- The one quotient that does not fit wraps around. -/
  overflows : signed l = -2 ^ 31 ∧ signed r = -1 → signed q = -2 ^ 31 ∧ signed m = 0

namespace ArithOp

variable {l r q m : UInt32}

/-- **Quotients and remainders** are those of signed division. -/
theorem dividesTo (hr : r ≠ 0) (hq : div.apply? l r = some q) (hm : mod.apply? l r = some m) :
    DividesTo l r q m where
  restores := calc
    signed q * signed r + signed m
      ≡ (signed l).tdiv (signed r) * signed r + (signed l).tmod (signed r) [ZMOD 2 ^ 32] :=
        ((signed_modEq_onInt hq).mul_right _).add (signed_modEq_onInt hm)
    _ = signed l := Int.tdiv_mul_add_tmod _ _
  abs_lt := by
    have hpos : 0 < (signed r).natAbs := Int.natAbs_pos.mpr (mt signed_eq_zero_iff.mp hr)
    rw [signed_of_mod hm, Int.abs_eq_natAbs, Int.abs_eq_natAbs, Int.natAbs_tmod]
    exact Int.ofNat_lt.mpr (Nat.mod_lt _ hpos)
  sign_eq := by
    have hsign := Int.sign_tmod (signed l) (signed r)
    rw [signed_of_mod hm]
    split at hsign
    · exact .inl (Int.sign_eq_zero_iff_zero.mp hsign)
    · exact .inr hsign
  truncates := signed_of_div hq
  overflows := by
    rintro ⟨hleast, hone⟩
    -- The quotient is `2 ^ 31`, one more than fits, and comes back as `-2 ^ 31`.
    have hwrap : signed q = ((signed l).tdiv (signed r)).bmod (2 ^ 32) := by
      rw [← toInt_toInt32, toInt32_of_div hq, Int32.toInt_div, toInt_toInt32, toInt_toInt32]
    rw [hwrap, signed_of_mod hm, hleast, hone]
    decide

/-- The signs of both operands count, and the least number divided by `-1` is itself. -/
example : div.apply? (-7) 2 = some (-3) ∧ mod.apply? (-7) 2 = some (-1) ∧
    div.apply? 0x80000000 (-1) = some 0x80000000 ∧ mod.apply? 0x80000000 (-1) = some 0 := by
  decide

end ArithOp

/-! ## Executing arithmetic -/

section Executing

variable {σ : Type} [Host σ] (a : Activation) (m : Machine σ) (l r : UInt32)

/-- **Arithmetic on signed words.** A quotient or remainder of two operands fails, as a division by
zero, exactly if the divisor is zero; otherwise the two of them are those of signed division. Sums,
differences and products never fail, and are the integer ones modulo 2 ^ 32, whether the operands
are read as signed or not. -/
theorem Op.exec_arith_signed :
    (∀ op ∈ [ArithOp.div, .mod],
      (Op.arith op).exec ((a.push l).push r) m = .fault .divisionByZero m ↔ r = 0) ∧
    (r ≠ 0 → ∃ q rem : UInt32,
      (Op.arith .div).exec ((a.push l).push r) m = .next (a.push q) m ∧
      (Op.arith .mod).exec ((a.push l).push r) m = .next (a.push rem) m ∧ DividesTo l r q rem) ∧
    (∀ op ∈ [ArithOp.add, .sub, .mul], ∃ v : UInt32,
      (Op.arith op).exec ((a.push l).push r) m = .next (a.push v) m ∧
      (v.toNat : ℤ) = op.onInt (signed l) (signed r) % 2 ^ 32 ∧
      (v.toNat : ℤ) = op.onInt l.toNat r.toNat % 2 ^ 32) := by
  refine ⟨fun op hop => ?_, fun hr => ?_, fun op hop => ?_⟩
  · have hfails : op.apply? l r = none ↔ r = 0 := by
      rw [ArithOp.fails_iff, and_iff_right hop]
    rw [Op.exec_arith_push, ← hfails]
    cases op.apply? l r <;> simp
  · obtain ⟨q, hq⟩ := ArithOp.exists_value l fun h : ArithOp.div ∈ _ ∧ _ => hr h.2
    obtain ⟨rem, hrem⟩ := ArithOp.exists_value l fun h : ArithOp.mod ∈ _ ∧ _ => hr h.2
    refine ⟨q, rem, ?_, ?_, ArithOp.dividesTo hr hq hrem⟩
    · rw [Op.exec_arith_push, hq]
    · rw [Op.exec_arith_push, hrem]
  · have hnever : ¬ (op ∈ [ArithOp.div, .mod] ∧ r = 0) := by
      cases op <;> simp at hop ⊢
    obtain ⟨v, hv⟩ := ArithOp.exists_value l hnever
    have hsigned := ArithOp.signed_modEq_onInt hv
    have hunsigned := ArithOp.onInt_modEq hop (signed_modEq_toNat l) (signed_modEq_toNat r)
    refine ⟨v, ?_, toNat_eq_emod hsigned, toNat_eq_emod (hsigned.trans hunsigned)⟩
    rw [Op.exec_arith_push, hv]

end Executing

end StoryVM
