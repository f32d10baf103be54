import StoryVM.Proofs.Steady
import StoryVM.Proofs.Storage

/-! # The value stack as a bounded list of bytes

What can be seen of the value stack is its content, the bytes below the pointer. Operations on it
are operations on a list that has room for `capacity` bytes: a push appends the bytes of a number, a
pop takes them off again, a copy appends the last bytes once more, and setting the pointer back cuts
the list off. What would leave the list too long, or asks for more bytes than there are, fails, and
then the list stays as it was. Only setting the pointer forward shows more than the list, because it
uncovers bytes that were there before.

* `Stack.push_of_le`, `Stack.pop_of_content`: pushing and popping in terms of the content.
* `Stack.Operation.Does`: what an operation does to a bounded list of bytes.
* `Stack.perform_does`: one operation on the value stack does that, and `Stack.runs_inTurn` says so
  of operations one after the other.
* `Stack.inTurn_push_pop`: pops in the reverse order give back what was pushed. -/

namespace StoryVM.Stack

/-! ## The content -/

theorem content_eq (s : Stack) : s.content = s.bytes.toList.take s.pointer := by
  have hle : 0 + s.pointer ≤ s.bytes.size := by
    rw [Nat.zero_add]
    exact s.pointer_le
  rw [content, Bytes.window_eq hle, List.drop_zero]

@[simp] theorem length_content (s : Stack) : s.content.length = s.pointer :=
  Bytes.length_window _ _ _

theorem content_empty (capacity : Nat) : (empty capacity).content = [] :=
  List.eq_nil_of_length_eq_zero (length_content _)

/-- **Bytes that fit are appended.** -/
theorem pushBytes_of_le {s : Stack} {new : List UInt8} (h : s.pointer + new.length ≤ s.capacity) :
    ∃ s', s.pushBytes new = .ok s' ∧ s'.content = s.content ++ new := by
  unfold pushBytes
  rw [dif_pos h]
  refine ⟨_, rfl, ?_⟩
  have hlength : (s.bytes.toList.take s.pointer ++ new).length = s.pointer + new.length := by
    rw [List.length_append, ← content_eq, length_content]
  rw [content_eq, content_eq, Bytes.toList_splice h]
  exact List.take_left' hlength

theorem pushBytes_of_lt {s : Stack} {new : List UInt8} (h : s.capacity < s.pointer + new.length) :
    s.pushBytes new = .error (.stackOverflow s.pointer new.length s.capacity) := by
  unfold pushBytes
  exact dif_neg (Nat.not_le.mpr h)

/-- **A value that fits is pushed.** -/
theorem push_of_le {s : Stack} {w : Width} (v : UInt32) (h : s.pointer + w.bytes ≤ s.capacity) :
    ∃ s', s.push w v = .ok s' ∧ s'.content = s.content ++ Bytes.encode w v ∧
      s'.pointer = s.pointer + w.bytes ∧ s'.capacity = s.capacity := by
  have hroom : s.pointer + (Bytes.encode w v).length ≤ s.capacity := by
    rwa [Bytes.length_encode]
  obtain ⟨s', hpush, hcontent⟩ := pushBytes_of_le hroom
  refine ⟨s', hpush, hcontent, ?_, capacity_pushBytes hpush⟩
  rw [← length_content, hcontent, List.length_append, length_content, Bytes.length_encode]

theorem push_of_lt {s : Stack} {w : Width} (v : UInt32) (h : s.capacity < s.pointer + w.bytes) :
    s.push w v = .error (.stackOverflow s.pointer w.bytes s.capacity) := by
  have hfull : s.capacity < s.pointer + (Bytes.encode w v).length := by
    rwa [Bytes.length_encode]
  rw [push, pushBytes_of_lt hfull, Bytes.length_encode]

/-- The last bytes of the content are where the pointer is after they are popped. -/
theorem window_of_content {s : Stack} {n : Nat} {bs top : List UInt8} (h : s.content = bs ++ top)
    (hn : top.length = n) :
    Bytes.window s.bytes (s.pointer - n) n = top ∧ s.bytes.toList.take (s.pointer - n) = bs := by
  subst hn
  have hpointer : s.pointer = bs.length + top.length := by
    rw [← s.length_content, h, List.length_append]
  have hsize : s.pointer ≤ s.bytes.size := s.pointer_le
  have hbytes : s.bytes.toList = bs ++ (top ++ s.bytes.toList.drop s.pointer) := by
    rw [← List.append_assoc, ← h, content_eq, List.take_append_drop]
  rw [hpointer, Nat.add_sub_cancel, Bytes.window_eq (by omega), hbytes]
  exact ⟨by rw [List.drop_left, List.take_left], List.take_left⟩

/-- **The last bytes of the content can be popped.** -/
theorem pop_of_content {s : Stack} {w : Width} {bs top : List UInt8} (h : s.content = bs ++ top)
    (hw : top.length = w.bytes) :
    ∃ s', s.pop w = .ok (Bytes.decode top, s') ∧ s'.content = bs := by
  obtain ⟨hwindow, hrest⟩ := window_of_content h hw
  have hle : w.bytes ≤ s.pointer := by
    rw [← s.length_content, h, List.length_append]
    omega
  unfold pop
  rw [if_pos hle, ← hwindow]
  exact ⟨_, rfl, by rw [content_eq, hrest]⟩

/-- The content, cut where its last `n` bytes begin. -/
theorem exists_content_eq_append {s : Stack} {n : Nat} (h : n ≤ s.pointer) :
    ∃ bs top, s.content = bs ++ top ∧ top.length = n := by
  refine ⟨s.content.take (s.pointer - n), s.content.drop (s.pointer - n), ?_, ?_⟩
  · rw [List.take_append_drop]
  · rw [List.length_drop, length_content]
    omega

/-! ## Operations -/

/-- **The operations of the value stack.** -/
inductive Operation where
  /-- Push the low bytes of a value. -/
  | push (w : Width) (value : UInt32)
  /-- Pop a value. -/
  | pop (w : Width)
  /-- Repeat the top dwords. -/
  | copy (count : UInt32)
  /-- Set the pointer. -/
  | restore (pointer : Nat)

/-- **Performs an operation**: the answer, and the stack after it. -/
def perform (s : Stack) : Operation → Except Fault (Option UInt32) × Stack
  | .push w v => answered s (s.push w v)
  | .pop w =>
    match s.pop w with
    | .ok (v, s') => (.ok (some v), s')
    | .error f => (.error f, s)
  | .copy count => answered s (s.copyDwords count)
  | .restore pointer => answered s (s.restore pointer)

namespace Operation

/-- **What an operation does to a list of at most `capacity` bytes**: its answer, and the list after
it. -/
def Does (capacity : Nat) (bs : List UInt8) (answer : Except Fault (Option UInt32))
    (bs' : List UInt8) : Operation → Prop
  | push w v =>
    if bs.length + w.bytes ≤ capacity then
      answer = .ok none ∧ bs' = bs ++ Bytes.digits w.bytes v.toNat
    else answer = .error (.stackOverflow bs.length w.bytes capacity) ∧ bs' = bs
  | pop w =>
    if w.bytes ≤ bs.length then
      ∃ top, bs = bs' ++ top ∧ top.length = w.bytes ∧
        answer = .ok (some (.ofNat (Bytes.number top)))
    else answer = .error (.stackUnderflow bs.length w.bytes) ∧ bs' = bs
  | copy count =>
    if bs.length < 4 * count.toNat then
      answer = .error (.stackUnderflow bs.length (reportedBytes count)) ∧ bs' = bs
    else if capacity < bs.length + 4 * count.toNat then
      answer = .error (.stackOverflow bs.length (4 * count.toNat) capacity) ∧ bs' = bs
    else
      ∃ rest top, bs = rest ++ top ∧ top.length = 4 * count.toNat ∧ answer = .ok none ∧
        bs' = bs ++ top
  | restore pointer =>
    if capacity < pointer then
      answer = .error (.stackOverflow bs.length (pointer - bs.length) capacity) ∧ bs' = bs
    else
      answer = .ok none ∧ bs'.length = pointer ∧
        -- Bytes past the end of the list are uncovered, and the list does not say which.
        if pointer ≤ bs.length then bs' = bs.take pointer else bs <+: bs'

end Operation

theorem push_does (s : Stack) (w : Width) (v : UInt32) :
    (Operation.push w v).Does s.capacity s.content (s.perform (.push w v)).1
      (s.perform (.push w v)).2.content := by
  simp only [perform, Operation.Does, length_content]
  split
  · next hle =>
    obtain ⟨s', hpush, hcontent, -⟩ := push_of_le v hle
    rw [hpush, ← Bytes.encode_eq_digits]
    exact ⟨rfl, hcontent⟩
  · next hlt =>
    rw [push_of_lt v (Nat.not_le.mp hlt)]
    exact ⟨rfl, rfl⟩

theorem pop_does (s : Stack) (w : Width) :
    (Operation.pop w).Does s.capacity s.content (s.perform (.pop w)).1
      (s.perform (.pop w)).2.content := by
  simp only [perform, Operation.Does, length_content]
  split
  · next hle =>
    obtain ⟨bs, top, hsplit, hlength⟩ := exists_content_eq_append hle
    obtain ⟨s', hpop, hcontent⟩ := pop_of_content hsplit hlength
    rw [hpop]
    exact ⟨top, by rw [hsplit, hcontent], hlength, by rw [Bytes.decode_eq_number]⟩
  · next hlt =>
    unfold pop
    rw [if_neg hlt]
    exact ⟨rfl, rfl⟩

theorem copy_does (s : Stack) (count : UInt32) :
    (Operation.copy count).Does s.capacity s.content (s.perform (.copy count)).1
      (s.perform (.copy count)).2.content := by
  simp only [perform, copyDwords, Operation.Does, length_content]
  split
  · next hlt =>
    rw [if_neg (Nat.not_le.mpr hlt)]
    exact ⟨rfl, rfl⟩
  · next hle =>
    rw [if_pos (Nat.not_lt.mp hle)]
    obtain ⟨rest, top, hsplit, hlength⟩ := exists_content_eq_append (Nat.not_lt.mp hle)
    rw [(window_of_content hsplit hlength).1, ← hlength]
    split
    · next hroom =>
      rw [pushBytes_of_lt hroom]
      exact ⟨rfl, rfl⟩
    · next hroom =>
      obtain ⟨s', hpush, hcontent⟩ := pushBytes_of_le (Nat.not_lt.mp hroom)
      rw [hpush]
      exact ⟨rest, top, hsplit, rfl, rfl, hcontent⟩

theorem restore_does (s : Stack) (pointer : Nat) :
    (Operation.restore pointer).Does s.capacity s.content (s.perform (.restore pointer)).1
      (s.perform (.restore pointer)).2.content := by
  simp only [perform, restore, Operation.Does, length_content]
  split
  · next hlt =>
    rw [dif_neg (Nat.not_le.mpr hlt)]
    exact ⟨rfl, rfl⟩
  · next hle =>
    rw [dif_pos (Nat.not_lt.mp hle)]
    refine ⟨rfl, rfl, ?_⟩
    simp only [answered, content_eq, List.take_take]
    split
    · next hback => rw [Nat.min_eq_left hback]
    · next hforward => exact List.take_prefix_take_left (by omega)

/-- **An operation on the value stack** does to its content what it does to a bounded list of
bytes. -/
theorem perform_does (s : Stack) (op : Operation) :
    op.Does s.capacity s.content (s.perform op).1 (s.perform op).2.content := by
  cases op with
  | push w v => exact s.push_does w v
  | pop w => exact s.pop_does w
  | copy count => exact s.copy_does count
  | restore pointer => exact s.restore_does pointer

theorem capacity_answered {s : Stack} {x : Except Fault Stack}
    (h : ∀ s', x = .ok s' → s'.capacity = s.capacity) : (answered s x).2.capacity = s.capacity := by
  cases x with
  | error f => rfl
  | ok s' => exact h s' rfl

theorem capacity_perform (s : Stack) (op : Operation) :
    (s.perform op).2.capacity = s.capacity := by
  cases op with
  | push w v => exact capacity_answered fun s' h => capacity_pushBytes h
  | pop w =>
    unfold perform
    dsimp only
    split
    · next h => exact capacity_pop h
    · rfl
  | copy count => exact capacity_answered fun s' h => capacity_copyDwords h
  | restore pointer =>
    refine capacity_answered fun s' h => ?_
    unfold restore at h
    split at h
    · obtain rfl := Except.ok.inj h
      rfl
    · cases h

/-! ## Operations one after the other -/

/-- **Operations on a bounded list of bytes**, one after the other: the answers, and the list after
them. -/
inductive Runs (capacity : Nat) :
    List UInt8 → List Operation → List (Except Fault (Option UInt32)) → List UInt8 → Prop
  | nil (bs : List UInt8) : Runs capacity bs [] [] bs
  | cons {bs bs₁ bs₂ : List UInt8} {op : Operation} {ops : List Operation}
    {answer : Except Fault (Option UInt32)} {answers : List (Except Fault (Option UInt32))}
    (h : op.Does capacity bs answer bs₁) (hrest : Runs capacity bs₁ ops answers bs₂) :
    Runs capacity bs (op :: ops) (answer :: answers) bs₂

theorem capacity_inTurn (s : Stack) (ops : List Operation) :
    (inTurn perform s ops).2.capacity = s.capacity := by
  induction ops generalizing s with
  | nil => rfl
  | cons op ops ih => exact (ih _).trans (s.capacity_perform op)

theorem runs_inTurn (s : Stack) (ops : List Operation) :
    Runs s.capacity s.content ops (inTurn perform s ops).1 (inTurn perform s ops).2.content := by
  induction ops generalizing s with
  | nil => exact .nil _
  | cons op ops ih =>
    have hrest := ih (s.perform op).2
    rw [s.capacity_perform op] at hrest
    exact .cons (s.perform_does op) hrest

/-- **Last in, first out**: values of any widths that fit on the stack come back when they are
popped in the reverse order. -/
theorem inTurn_push_pop (s : Stack) (values : List (Width × UInt32))
    (h : s.pointer + (values.map fun q => q.1.bytes).sum ≤ s.capacity) :
    ∃ s', inTurn perform s (values.map (fun q => .push q.1 q.2) ++
        values.reverse.map fun q => .pop q.1) =
      (values.map (fun _ => .ok none) ++
        values.reverse.map (fun q => .ok (some (q.1.truncate q.2))), s') ∧
      s'.content = s.content := by
  induction values generalizing s with
  | nil => exact ⟨s, rfl, rfl⟩
  | cons q values ih =>
    obtain ⟨w, v⟩ := q
    simp only [List.map_cons, List.sum_cons] at h
    obtain ⟨s₁, hpush, hcontent₁, hpointer₁, hcapacity₁⟩ :=
      push_of_le (s := s) (w := w) v (by omega)
    have hfirst : s.perform (.push w v) = (.ok none, s₁) := by
      rw [perform, hpush]
      rfl
    obtain ⟨s₂, hmiddle, hcontent₂⟩ := ih s₁ (by omega)
    obtain ⟨s₃, hpop, hcontent₃⟩ := pop_of_content (hcontent₂.trans hcontent₁)
      (Bytes.length_encode w v)
    have hlast : s₂.perform (.pop w) = (.ok (some (w.truncate v)), s₃) := by
      rw [perform, hpop, Bytes.decode_encode]
    refine ⟨s₃, ?_, hcontent₃⟩
    rw [List.reverse_cons, List.map_append, List.map_append, List.map_cons, List.map_cons,
      List.cons_append, ← List.append_assoc, inTurn, hfirst, inTurn_append, hmiddle]
    simp [inTurn, hlast]

/-- **The value stack is a bounded list of bytes.** Whatever is done with a stack that starts empty,
the answers are those of a list with room for `capacity` bytes, and its content is what that list
comes to; it is as long as the pointer says, and never longer than the capacity. Values of any
widths that are pushed then, as far as they fit, come back when they are popped in the reverse
order, and the content is what it was. -/
theorem refines_bounded_list (capacity : Nat) (ops : List Operation) :
    ∃ answers s, inTurn perform (empty capacity) ops = (answers, s) ∧
      Runs capacity [] ops answers s.content ∧
      s.content.length = s.pointer ∧ s.pointer ≤ capacity ∧ s.capacity = capacity ∧
      ∀ values : List (Width × UInt32),
        s.pointer + (values.map fun q => q.1.bytes).sum ≤ capacity →
        ∃ s', inTurn perform s (values.map (fun q => .push q.1 q.2) ++
            values.reverse.map fun q => .pop q.1) =
          (values.map (fun _ => .ok none) ++
            values.reverse.map (fun q => .ok (some (q.1.truncate q.2))), s') ∧
          s'.content = s.content := by
  have hempty : (empty capacity).capacity = capacity := Array.size_replicate
  have hcapacity := ((empty capacity).capacity_inTurn ops).trans hempty
  have hruns := (empty capacity).runs_inTurn ops
  rw [hempty, content_empty] at hruns
  refine ⟨_, _, rfl, hruns, length_content _, ?_, hcapacity, fun values hroom => ?_⟩
  · exact Nat.le_trans (pointer_le _) (Nat.le_of_eq hcapacity)
  · exact inTurn_push_pop _ values (by rwa [hcapacity])

/-- With a dword on a stack of seven bytes there is room for a word and a byte. -/
theorem refines_bounded_list_mixed :
    ∃ s s', (inTurn perform (empty 7) [.push .dword 7]).2 = s ∧ s.pointer + (2 + 1) ≤ 7 ∧
      inTurn perform s [.push .word 0x102, .push .byte 3, .pop .byte, .pop .word] =
        ([.ok none, .ok none, .ok (some 3), .ok (some 0x102)], s') ∧
      s'.content = [0, 0, 0, 7] := by
  obtain ⟨answers, s, hrun, -, -, -, -, hlifo⟩ := refines_bounded_list 7 [.push .dword 7]
  have hs : (inTurn perform (empty 7) [.push .dword 7]).2 = s := by rw [hrun]
  have hpointer : s.pointer = 4 := by
    rw [← hs]
    decide
  have hcontent : s.content = [0, 0, 0, 7] := by
    rw [← hs]
    decide
  obtain ⟨s', hpops, hsame⟩ := hlifo [(.word, 0x102), (.byte, 3)] (by rw [hpointer]; decide)
  exact ⟨s, s', hs, by omega, hpops, hsame.trans hcontent⟩

end StoryVM.Stack
