import Mathlib.Data.List.Induction
import Mathlib.Data.Nat.Digits.Defs
import StoryVM.Proofs.Reading

/-! # Numbers in storage

Memory and the value stack keep their bytes in an array, and both are described by what they do to
a list of bytes. This module has what the two descriptions share: the number that bytes stand for
and the bytes of a number, both by their place values in base 256 (`Bytes.number`, `Bytes.digits`);
stretches of an array as parts of a list (`Bytes.toList_splice`); and operations that are performed
one after the other (`inTurn`), each with an answer. -/

namespace StoryVM

namespace Bytes

/-! ## Place values -/

/-- **The number that bytes stand for**, the most significant first. -/
def number (bs : List UInt8) : Nat := Nat.ofDigits 256 (bs.reverse.map UInt8.toNat)

/-- **The low bytes of a number**, the most significant first. -/
def digits (count n : Nat) : List UInt8 :=
  (List.range count).reverse.map fun place => UInt8.ofNat (n / 256 ^ place)

theorem number_concat (bs : List UInt8) (b : UInt8) :
    number (bs ++ [b]) = number bs * 256 + b.toNat := by
  simp only [number, List.reverse_append, List.reverse_singleton, List.singleton_append,
    List.map_cons, Nat.ofDigits_cons]
  omega

/-- A read value is the number that its bytes stand for. -/
theorem decode_eq_number (bs : List UInt8) : decode bs = UInt32.ofNat (number bs) := by
  induction bs using List.reverseRecOn with
  | nil => rfl
  | append_singleton bs b ih =>
    have hb : b.toUInt32 = UInt32.ofNat b.toNat := by simp
    rw [decode, List.foldl_append, ← decode, ih, number_concat, UInt32.ofNat_add, UInt32.ofNat_mul]
    rw [List.foldl_cons, List.foldl_nil, hb]
    rfl

@[simp] theorem length_digits (count n : Nat) : (digits count n).length = count := by
  simp [digits]

/-- A written value is put down as the low bytes of its number. -/
theorem encode_eq_digits (w : Width) (v : UInt32) : encode w v = digits w.bytes v.toNat := by
  cases w <;> simp [encode, digits, Width.bytes, List.range_succ, ← UInt8.toNat_inj]

/-! ## Stretches -/

/-- **A stretch that is written** takes the place of what was there. -/
theorem toList_splice {bytes : Array UInt8} {start : Nat} {new : List UInt8}
    (h : start + new.length ≤ bytes.size) :
    (splice bytes start new).toList =
      bytes.toList.take start ++ new ++ bytes.toList.drop (start + new.length) := by
  induction new generalizing bytes start with
  | nil => simp [splice]
  | cons b rest ih =>
    rw [List.length_cons] at h ⊢
    have hstart : start < bytes.toList.length := by rw [Array.length_toList]; omega
    have htake : (bytes.toList.set start b).take (start + 1) = bytes.toList.take start ++ [b] := by
      rw [List.take_add_one, List.take_set_of_le (Nat.le_refl start),
        List.getElem?_set_self hstart, Option.toList_some]
    have hdrop : (bytes.toList.set start b).drop (start + 1 + rest.length) =
        bytes.toList.drop (start + (rest.length + 1)) := by
      rw [List.drop_set_of_lt (by omega)]
      congr 1
      omega
    rw [splice, ih (by rw [Array.size_setIfInBounds]; omega), Array.toList_setIfInBounds, htake,
      hdrop]
    simp

end Bytes

/-! ## Operations one after the other -/

variable {α β ω : Type}

/-- The answer to a change and the state after it: the old one if the change fails. -/
def answered (s : α) : Except Fault α → Except Fault (Option UInt32) × α
  | .ok s' => (.ok none, s')
  | .error f => (.error f, s)

/-- **Performs operations in turn**, each on the state that the one before has left. -/
def inTurn (perform : α → ω → β × α) : α → List ω → List β × α
  | s, [] => ([], s)
  | s, op :: ops =>
    let first := perform s op
    let rest := inTurn perform first.2 ops
    (first.1 :: rest.1, rest.2)

theorem inTurn_append (perform : α → ω → β × α) (s : α) (ops ops' : List ω) :
    inTurn perform s (ops ++ ops') =
      ((inTurn perform s ops).1 ++ (inTurn perform (inTurn perform s ops).2 ops').1,
        (inTurn perform (inTurn perform s ops).2 ops').2) := by
  induction ops generalizing s with
  | nil => rfl
  | cons op ops ih => simp only [List.cons_append, inTurn, ih]

/-- **A view that every operation respects** is respected by operations one after the other. -/
theorem inTurn_view {γ : Type} {perform : α → ω → β × α} {perform' : γ → ω → β × γ} (view : α → γ)
    (h : ∀ s op, perform' (view s) op = (perform s op).map id view) (s : α) (ops : List ω) :
    inTurn perform' (view s) ops = (inTurn perform s ops).map id view := by
  induction ops generalizing s with
  | nil => rfl
  | cons op ops ih =>
    simp only [inTurn, h s op, Prod.map_fst, Prod.map_snd, id_eq, ih]
    rfl

end StoryVM
