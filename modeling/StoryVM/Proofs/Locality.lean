import StoryVM.Proofs.Reading
import StoryVM.Routine.Decode

/-! # What a routine is read from

Reading a routine looks at its bytes only: the header, the locals, the instructions and the opcode
number that ends them. Readers go forward, so all of these lie before the place where reading ends.

* `Routine.liesBelow`: the routine at an address is all there, and ends below a limit.
* `Memory.Holds`: a memory has all the bytes that another one has below a limit.
* `Reads`: what a reader finds in the one memory, it finds in the other, as long as it stays below
  the limit.
* `Routine.decode_of_holds`: so the routine read from the one is the routine read from the other. -/

namespace StoryVM

/-- The stream at the cursor ends with an opcode number that is not in the table, and no byte of it
lies at the limit or above. It may have at most `fuel` instructions, as in `Listing.scanFrom`. -/
def Cursor.endsBelow (routine : UInt32) (limit : Nat) : (fuel : Nat) → Cursor → Bool
  | 0, _ => false
  | fuel + 1, c =>
    match c.opcodeNumber with
    | .error _ => false
    | .ok (number, modes) =>
      match Opcode.ofNumber? number with
      | none => modes.address.toNat ≤ limit
      | some opcode =>
        match modes.instr routine c.address opcode with
        | .error _ => false
        | .ok (_, rest) => endsBelow routine limit fuel rest

/-- **The routine at an address lies below a limit**: its header, its locals, its instructions and
the opcode number that ends them are all there, and no byte of them lies at the limit or above. -/
def Routine.liesBelow (m : Memory) (address : UInt32) (limit : Nat) : Bool :=
  match header m address with
  | .error _ => false
  | .ok (_, _, code) => code.endsBelow address limit m.size

/-- **A memory has the bytes of another one below a limit.** -/
structure Memory.Holds (m m' : Memory) (limit : Nat) : Prop where
  size : m.size ≤ m'.size
  bytes : ∀ i < limit, i < m.size → m'.bytes[i]? = m.bytes[i]?

section

variable {m m' : Memory} {limit : Nat}

theorem Memory.Holds.read (h : m.Holds m' limit) {w : Width} {a v : UInt32}
    (hv : m.read w a = .ok v) (hlimit : a.toNat + w.bytes ≤ limit) : m'.read w a = .ok v := by
  unfold Memory.read at hv ⊢
  split at hv
  · next hrange =>
    have hle : a.toNat + w.bytes ≤ m.size := of_decide_eq_true hrange
    have hrange' : m'.inRange a w.bytes = true := decide_eq_true (Nat.le_trans hle h.size)
    have hwindow : Bytes.window m'.bytes a.toNat w.bytes = Bytes.window m.bytes a.toNat w.bytes := by
      refine List.map_congr_left fun k hk => ?_
      have hk : k < w.bytes := List.mem_range.mp hk
      rw [Array.getD_eq_getD_getElem?, Array.getD_eq_getD_getElem?,
        h.bytes (a.toNat + k) (by omega) (by omega)]
    rw [if_pos hrange', hwindow]
    exact hv
  · cases hv

/-! ## Readers -/

variable {α β γ γ' : Type}

/-- **What a reader finds in one memory, it finds in another.** If the first computation succeeds, it
has read from `m` up to the cursor that it gives back, and to a position `start` at least. If it has
stayed below the limit, then the second one, which reads from `m'`, comes to the same. -/
def Reads (m m' : Memory) (limit start : Nat) (x x' : Except Fault (α × Cursor)) : Prop :=
  ∀ v c, x = .ok (v, c) → c.memory = m ∧ start ≤ c.address.toNat ∧
    (c.address.toNat ≤ limit → x' = .ok (v, ⟨m', c.address⟩))

namespace Reads

variable {start : Nat} {x x' : Except Fault (α × Cursor)}

theorem pure (v : α) (a : UInt32) :
    Reads m m' limit a.toNat (.ok (v, ⟨m, a⟩)) (.ok (v, ⟨m', a⟩)) := by
  intro v' c h
  obtain ⟨rfl, rfl⟩ := Prod.mk.inj (Except.ok.inj h)
  exact ⟨rfl, Nat.le_refl _, fun _ => rfl⟩

theorem error (f : Fault) : Reads m m' limit start (.error f : Except Fault (α × Cursor)) x' :=
  fun _ _ h => nomatch h

theorem mono {start' : Nat} (h : Reads m m' limit start x x') (hle : start' ≤ start) :
    Reads m m' limit start' x x' := by
  intro v c hx
  obtain ⟨hmemory, hforward, hfinds⟩ := h v c hx
  exact ⟨hmemory, Nat.le_trans hle hforward, hfinds⟩

theorem bind {f f' : α × Cursor → Except Fault (β × Cursor)} (hx : Reads m m' limit start x x')
    (hf : ∀ v b, start ≤ b.toNat →
      Reads m m' limit b.toNat (f (v, ⟨m, b⟩)) (f' (v, ⟨m', b⟩))) :
    Reads m m' limit start (x >>= f) (x' >>= f') := by
  intro v c h
  obtain ⟨⟨u, ⟨memory, b⟩⟩, hu, hv⟩ := bind_ok_iff.mp h
  obtain ⟨rfl, hforward, hfinds⟩ := hx u _ hu
  obtain ⟨hmemory, hforward', hfinds'⟩ := hf u b hforward v c hv
  refine ⟨hmemory, Nat.le_trans hforward hforward', fun hlimit => ?_⟩
  exact bind_ok_iff.mpr ⟨_, hfinds (Nat.le_trans hforward' hlimit), hfinds' hlimit⟩

/-- A look at bytes before the position that the reader comes to. -/
theorem look {y : Except Fault γ} {y' : Except Fault γ'} {f : γ → Except Fault (α × Cursor)}
    {f' : γ' → Except Fault (α × Cursor)}
    (hy : ∀ u, y = .ok u →
      ∃ u', (start ≤ limit → y' = .ok u') ∧ Reads m m' limit start (f u) (f' u')) :
    Reads m m' limit start (y >>= f) (y' >>= f') := by
  intro v c h
  obtain ⟨u, hu, hv⟩ := bind_ok_iff.mp h
  obtain ⟨u', hu', hf⟩ := hy u hu
  obtain ⟨hmemory, hforward, hfinds⟩ := hf v c hv
  refine ⟨hmemory, hforward, fun hlimit => ?_⟩
  exact bind_ok_iff.mpr ⟨u', hu' (Nat.le_trans hforward hlimit), hfinds hlimit⟩

theorem map (hx : Reads m m' limit start x x') (g : α → β) :
    Reads m m' limit start (x.map fun p => (g p.1, p.2)) (x'.map fun p => (g p.1, p.2)) := by
  intro v c h
  obtain ⟨⟨u, c⟩, hu, he⟩ := map_ok_iff.mp h
  obtain ⟨rfl, rfl⟩ := Prod.mk.inj he
  obtain ⟨hmemory, hforward, hfinds⟩ := hx u c hu
  exact ⟨hmemory, hforward, fun hlimit => map_ok_iff.mpr ⟨_, hfinds hlimit, rfl⟩⟩

end Reads

/-- Addresses do not wrap around inside memory. -/
theorem toNat_add_of_le (hm : m.size < 0x100000000) {a : UInt32} {n : Nat}
    (h : a.toNat + n ≤ m.size) : (a + UInt32.ofNat n).toNat = a.toNat + n := by
  rw [UInt32.toNat_add, UInt32.toNat_ofNat']
  omega

namespace Cursor

theorem next_ok (hm : m.size < 0x100000000) {w : Width} {a v : UInt32} {c : Cursor}
    (h : next ⟨m, a⟩ w = .ok (v, c)) :
    m.read w a = .ok v ∧ c = ⟨m, a + UInt32.ofNat w.bytes⟩ ∧ a.toNat + w.bytes ≤ m.size ∧
      (a + UInt32.ofNat w.bytes).toNat = a.toNat + w.bytes := by
  obtain ⟨u, hu, he⟩ := map_ok_iff.mp h
  obtain ⟨rfl, rfl⟩ := Prod.mk.inj he
  have hle : a.toNat + w.bytes ≤ m.size := by
    unfold Memory.read at hu
    split at hu
    · next hrange => exact of_decide_eq_true hrange
    · cases hu
  exact ⟨hu, rfl, hle, toNat_add_of_le hm hle⟩

variable (hm : m.size < 0x100000000) (h : m.Holds m' limit)

include hm h

theorem reads_next (a : UInt32) (w : Width) :
    Reads m m' limit (a.toNat + w.bytes) (next ⟨m, a⟩ w) (next ⟨m', a⟩ w) := by
  intro v c hv
  obtain ⟨hread, rfl, -, hadd⟩ := next_ok hm hv
  refine ⟨rfl, Nat.le_of_eq hadd.symm, fun hlimit => ?_⟩
  exact map_ok_iff.mpr ⟨v, h.read hread (Nat.le_trans (Nat.le_of_eq hadd.symm) hlimit), rfl⟩

theorem reads_nextByte (a : UInt32) :
    Reads m m' limit (a.toNat + 1) (nextByte ⟨m, a⟩) (nextByte ⟨m', a⟩) :=
  (reads_next hm h a .byte).map UInt32.toUInt8

theorem reads_opcodeNumber (a : UInt32) :
    Reads m m' limit (a.toNat + 1) (opcodeNumber ⟨m, a⟩) (opcodeNumber ⟨m', a⟩) := by
  have hvalue : ∀ (w : Width) (mask : UInt32), Reads m m' limit (a.toNat + 1)
      (do let q ← next ⟨m, a⟩ w; return (q.1 &&& mask, q.2))
      (do let q ← next ⟨m', a⟩ w; return (q.1 &&& mask, q.2)) := by
    intro w mask
    have hpos := w.bytes_pos
    exact ((reads_next hm h a w).mono (by omega)).bind fun u b _ => .pure (u &&& mask) b
  -- The byte that tells the length of the number is the first byte of the number.
  refine .look fun first hfirst => ⟨first, fun hlimit => ?_, ?_⟩
  · obtain ⟨u, hu, he⟩ := map_ok_iff.mp hfirst
    exact map_ok_iff.mpr ⟨u, h.read hu hlimit, he⟩
  · dsimp only
    split
    · exact hvalue .dword _
    · split
      · exact hvalue .word _
      · exact hvalue .byte _

theorem reads_operandOfNibble (routine : UInt32) (nibble : UInt8) (a : UInt32) :
    Reads m m' limit a.toNat (operandOfNibble ⟨m, a⟩ routine nibble)
      (operandOfNibble ⟨m', a⟩ routine nibble) := by
  unfold operandOfNibble operand
  split
  · split
    · exact .pure _ a
    · next w hw =>
      exact ((reads_next hm h a w).mono (Nat.le_add_right _ _)).bind fun data b _ => .pure _ b
  · exact .error _

omit h in
theorem nextByte_ok {a : UInt32} {b : UInt8} {c : Cursor} (hb : nextByte ⟨m, a⟩ = .ok (b, c)) :
    ∃ a', c = ⟨m, a'⟩ ∧ a'.toNat = a.toNat + 1 ∧ a'.toNat ≤ m.size := by
  obtain ⟨⟨v, c'⟩, hv, he⟩ := map_ok_iff.mp hb
  obtain ⟨-, rfl⟩ := Prod.mk.inj he
  obtain ⟨-, hc, hle, hadd⟩ := next_ok hm hv
  exact ⟨_, hc, hadd, hadd ▸ hle⟩

/-- A mode byte is looked at before the data that the reader goes on to. -/
theorem reads_mode {a : UInt32} {start : Nat} {f f' : UInt8 × Cursor → Except Fault (α × Cursor)}
    (ha : a.toNat + 1 ≤ start)
    (hf : ∀ b a', a'.toNat = a.toNat + 1 →
      Reads m m' limit start (f (b, ⟨m, a'⟩)) (f' (b, ⟨m', a'⟩))) :
    Reads m m' limit start (nextByte ⟨m, a⟩ >>= f) (nextByte ⟨m', a⟩ >>= f') := by
  refine .look fun ⟨b, c⟩ hb => ?_
  obtain ⟨-, -, hfinds⟩ := reads_nextByte hm h a b c hb
  obtain ⟨a', rfl, ha', -⟩ := nextByte_ok hm hb
  refine ⟨(b, ⟨m', a'⟩), fun hlimit => hfinds ?_, hf b a' ha'⟩
  exact Nat.le_trans (Nat.le_of_eq ha') (Nat.le_trans ha hlimit)

/-- The operands of an instruction. Their modes are read in step with their data, which stand behind
all of the modes. -/
theorem reads_operands (routine : UInt32) :
    ∀ (roles : List Role) (a d : UInt32), a.toNat + (roles.length + 1) / 2 ≤ d.toNat →
      Reads m m' limit d.toNat (operands routine ⟨m, a⟩ ⟨m, d⟩ roles)
        (operands routine ⟨m', a⟩ ⟨m', d⟩ roles)
  | [], _, d, _ => .pure [] d
  | [r], a, d, hd => by
    refine reads_mode hm h (by simpa using hd) fun pair a' _ => ?_
    exact .bind (reads_operandOfNibble hm h routine _ d) fun o b _ => .pure _ b
  | r₁ :: r₂ :: rest, a, d, hd => by
    simp only [List.length_cons] at hd
    refine reads_mode hm h (by omega) fun pair a' ha' => ?_
    refine .bind (reads_operandOfNibble hm h routine _ d) fun o₁ d₁ hd₁ => ?_
    refine .bind (reads_operandOfNibble hm h routine _ d₁) fun o₂ d₂ hd₂ => ?_
    exact .bind (reads_operands routine rest a' d₂ (by omega)) fun more b _ => .pure _ b

omit h in
/-- The modes of operands that can be read lie inside memory. -/
theorem modes_le (routine : UInt32) :
    ∀ (roles : List Role) (a : UInt32) (data : Cursor) (q : List (Role × Operand) × Cursor),
      operands routine ⟨m, a⟩ data roles = .ok q → roles ≠ [] →
      a.toNat + (roles.length + 1) / 2 ≤ m.size
  | [], _, _, _, _, hne => (hne rfl).elim
  | [r], a, data, q, hq, _ => by
    obtain ⟨⟨pair, c⟩, hpair, -⟩ := bind_ok_iff.mp hq
    obtain ⟨a', -, ha', hle⟩ := nextByte_ok hm hpair
    simp only [List.length_singleton]
    omega
  | r₁ :: r₂ :: rest, a, data, q, hq, _ => by
    obtain ⟨⟨pair, c⟩, hpair, hq⟩ := bind_ok_iff.mp hq
    obtain ⟨⟨o₁, data₁⟩, -, hq⟩ := bind_ok_iff.mp hq
    obtain ⟨⟨o₂, data₂⟩, -, hq⟩ := bind_ok_iff.mp hq
    obtain ⟨q', hq', -⟩ := bind_ok_iff.mp hq
    obtain ⟨a', rfl, ha', hle⟩ := nextByte_ok hm hpair
    have hrest := modes_le routine rest a' data₂ q' hq'
    simp only [List.length_cons]
    by_cases hne : rest = []
    · rw [hne, List.length_nil]
      omega
    · have := hrest hne
      omega

theorem reads_instr (routine address : UInt32) (opcode : Opcode) (a : UInt32) :
    Reads m m' limit a.toNat (instr ⟨m, a⟩ routine address opcode)
      (instr ⟨m', a⟩ routine address opcode) := by
  intro i c hi
  obtain ⟨q, hq, -⟩ := bind_ok_iff.mp hi
  have hdata : (a + UInt32.ofNat ((opcode.roles.length + 1) / 2)).toNat =
      a.toNat + (opcode.roles.length + 1) / 2 := by
    by_cases hne : opcode.roles = []
    · simp [hne]
    · exact toNat_add_of_le hm (modes_le hm routine _ a _ q hq hne)
  have hoperands := reads_operands hm h routine opcode.roles a
    (a + UInt32.ofNat ((opcode.roles.length + 1) / 2)) (Nat.le_of_eq hdata.symm)
  have hinstr : Reads m m' limit (a + UInt32.ofNat ((opcode.roles.length + 1) / 2)).toNat
      (instr ⟨m, a⟩ routine address opcode) (instr ⟨m', a⟩ routine address opcode) :=
    .bind hoperands fun all b _ => .pure _ b
  exact hinstr.mono (by omega) i c hi

/-- The groups of locals, with fuel to spare. -/
theorem reads_localGroups (routine : UInt32) :
    ∀ (fuel fuel' : Nat) (a : UInt32), fuel ≤ fuel' →
      Reads m m' limit a.toNat (localGroups routine fuel ⟨m, a⟩) (localGroups routine fuel' ⟨m', a⟩)
  | 0, _, _, _ => .error _
  | fuel + 1, 0, _, hle => (Nat.not_succ_le_zero fuel hle).elim
  | fuel + 1, fuel' + 1, a, hle => by
    refine .bind ((reads_nextByte hm h a).mono (Nat.le_succ _)) fun size b _ => ?_
    refine .bind ((reads_nextByte hm h b).mono (Nat.le_succ _)) fun count b' _ => ?_
    dsimp only
    split
    · exact .pure _ b'
    · split
      · exact .error _
      · refine .bind (reads_localGroups routine fuel fuel' b' (Nat.le_of_succ_le_succ hle)) ?_
        exact fun groups b _ => .pure _ b

/-! ## Streams and routines -/

/-- **A stream that ends below the limit** is the same in both memories. -/
theorem scanFrom_of_holds (routine : UInt32) {fuel fuel' : Nat} (hle : fuel ≤ fuel') {a : UInt32}
    (hends : endsBelow routine limit fuel ⟨m, a⟩ = true) (seen : List Instr) :
    a.toNat ≤ limit ∧ Listing.scanFrom routine fuel' ⟨m', a⟩ seen =
      Listing.scanFrom routine fuel ⟨m, a⟩ seen := by
  -- The end of the stream is what is known to lie below the limit, so each reader's success in the
  -- other memory is drawn on only after the induction hypothesis has told that the rest does.
  induction fuel generalizing fuel' a seen with
  | zero => cases hends
  | succ fuel ih =>
    obtain ⟨fuel', rfl⟩ : ∃ k, fuel' = k + 1 := ⟨fuel' - 1, by omega⟩
    unfold endsBelow at hends
    unfold Listing.scanFrom
    cases hnumber : opcodeNumber ⟨m, a⟩ with
    | error f =>
      rw [hnumber] at hends
      cases hends
    | ok p =>
      obtain ⟨number, ⟨memory, b⟩⟩ := p
      obtain ⟨rfl, hforward, hfinds⟩ := reads_opcodeNumber hm h a _ _ hnumber
      rw [hnumber] at hends
      dsimp only at hends hforward hfinds ⊢
      cases hopcode : Opcode.ofNumber? number with
      | none =>
        rw [hopcode] at hends
        have hlimit : b.toNat ≤ limit := of_decide_eq_true hends
        rw [hfinds hlimit]
        dsimp only
        rw [hopcode]
        exact ⟨by omega, rfl⟩
      | some opcode =>
        rw [hopcode] at hends
        dsimp only at hends ⊢
        cases hinstr : instr ⟨memory, b⟩ routine a opcode with
        | error f =>
          rw [hinstr] at hends
          cases hends
        | ok p =>
          obtain ⟨i, ⟨memory', b'⟩⟩ := p
          obtain ⟨rfl, hforward', hfinds'⟩ := reads_instr hm h routine a opcode b _ _ hinstr
          rw [hinstr] at hends
          dsimp only at hends hforward' hfinds' ⊢
          obtain ⟨hlimit, hrest⟩ := ih (Nat.le_of_succ_le_succ hle) hends (i :: seen)
          rw [hfinds (by omega)]
          dsimp only
          rw [hopcode]
          dsimp only
          rw [hfinds' hlimit]
          exact ⟨by omega, hrest⟩

end Cursor

theorem Routine.header_of_holds (hm : m.size < 0x100000000) (h : m.Holds m' limit)
    {address : UInt32} {convention : Convention} {groups : List LocalGroup} {code : Cursor}
    (hheader : header m address = .ok (convention, groups, code)) :
    code.memory = m ∧ (code.address.toNat ≤ limit →
      header m' address = .ok (convention, groups, ⟨m', code.address⟩)) := by
  obtain ⟨⟨typeByte, ⟨memory, a⟩⟩, hbyte, hrest⟩ := bind_ok_iff.mp hheader
  obtain ⟨convention', hconvention, hrest⟩ := bind_ok_iff.mp hrest
  obtain ⟨⟨groups', code'⟩, hgroups, he⟩ := bind_ok_iff.mp hrest
  cases he
  obtain ⟨rfl, -, hbyte'⟩ := Cursor.reads_nextByte hm h address _ _ hbyte
  have hsize : memory.size + 1 ≤ m'.size + 1 := Nat.succ_le_succ h.size
  obtain ⟨hmemory, hforward, hgroups'⟩ :=
    Cursor.reads_localGroups hm h address _ _ a hsize _ _ hgroups
  refine ⟨hmemory, fun hlimit => ?_⟩
  refine bind_ok_iff.mpr ⟨_, hbyte' (Nat.le_trans hforward hlimit), ?_⟩
  exact bind_ok_iff.mpr ⟨_, hconvention, bind_ok_iff.mpr ⟨_, hgroups' hlimit, rfl⟩⟩

/-- **A routine that lies below the limit** is the same in both memories. -/
theorem Routine.decode_of_holds (hm : m.size < 0x100000000) (h : m.Holds m' limit)
    {address : UInt32} (hlies : liesBelow m address limit = true) (ramStart : UInt32) :
    decode m' address ramStart = decode m address ramStart := by
  unfold liesBelow at hlies
  cases hheader : header m address with
  | error f =>
    rw [hheader] at hlies
    cases hlies
  | ok p =>
    obtain ⟨convention, groups, ⟨memory, a⟩⟩ := p
    rw [hheader] at hlies
    obtain ⟨rfl, hheader'⟩ := header_of_holds hm h hheader
    obtain ⟨hlimit, hscan⟩ := Cursor.scanFrom_of_holds hm h address h.size hlies []
    have hlisting : Listing.scan address ⟨m', a⟩ = Listing.scan address ⟨memory, a⟩ := hscan
    unfold decode
    rw [hheader, hheader' hlimit]
    dsimp only [Bind.bind, Except.bind]
    rw [hlisting]

end

end StoryVM
