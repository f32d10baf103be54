import StoryVM.Proofs.Decoded
import StoryVM.Proofs.Reading

/-! # The format of routines

What a routine looks like in memory, as a grammar on bytes, and that reading a routine accepts
exactly that.

* `Spells`: the one, two and four byte forms of opcode numbers.
* `OperandBytes`, `InstrBytes`: the operands of an instruction, and whole instructions.
* `GroupBytes`, `StreamBytes`: the groups of locals, and a stream of instructions, which ends where
  no opcode of the table is spelled.
* `Routine.decode_iff_parse`: a routine is read if it has a parse, and the parse is unique. -/

namespace StoryVM

/-! ## The grammar -/

/-- **The spellings of opcode numbers**: one byte below `80`, two bytes from there on, and four bytes
from `C0` on. The top bits of the first byte only tell the form. -/
inductive Spells : List UInt8 → UInt32 → Prop
  | one (b : UInt8) (h : b < 0x80) : Spells [b] (Bytes.decode [b])
  | two (b c : UInt8) (h : 0x80 ≤ b) (h' : b < 0xC0) : Spells [b, c] (Bytes.decode [b &&& 0x3F, c])
  | four (b c d e : UInt8) (h : 0xC0 ≤ b) :
    Spells [b, c, d, e] (Bytes.decode [b &&& 0x0F, c, d, e])

/-- The modes in mode bytes, the low one of each byte first. -/
def nibbles (bs : List UInt8) : List UInt8 := bs.flatMap fun b => [b &&& 0x0F, b >>> 4]

/-- The operand of a mode with the given data. -/
def Mode.ofData (m : Mode) (data : List UInt8) : Operand :=
  match m.field with
  | none => ⟨m.kind, 0⟩
  | some w => m.operand w (Bytes.decode data)

/-- **The data of operands** with the given modes, one after the other. -/
inductive OperandBytes : List UInt8 → List UInt8 → List Operand → Prop
  | nil : OperandBytes [] [] []
  | cons {nibble : UInt8} {modes data rest : List UInt8} {mode : Mode} {os : List Operand}
    (hm : Mode.ofNibble? nibble = some mode) (hd : data.length = mode.dataBytes)
    (h : OperandBytes modes rest os) :
    OperandBytes (nibble :: modes) (data ++ rest) (mode.ofData data :: os)

/-- The operands of an opcode that have a role. -/
def Opcode.pick (o : Opcode) (os : List Operand) (r : Role) : List Operand :=
  ((o.roles.zip os).filter (·.1 = r)).map (·.2)

/-- **The bytes of an instruction** at an address: an opcode number in the table, a mode for each
operand, two to a byte, and the data of the operands. -/
inductive InstrBytes (address : UInt32) : List UInt8 → Instr → Prop
  | intro {code modes data : List UInt8} {number : UInt32} {opcode : Opcode} {os : List Operand}
    (hc : Spells code number) (ho : Opcode.ofNumber? number = some opcode)
    (hm : modes.length = (opcode.roles.length + 1) / 2)
    (hd : OperandBytes ((nibbles modes).take opcode.roles.length) data os) :
    InstrBytes address (code ++ (modes ++ data))
      ⟨opcode, opcode.pick os .load, opcode.pick os .store, address,
        address + UInt32.ofNat (code ++ (modes ++ data)).length⟩

/-- No opcode of the table is spelled at the start of the bytes. -/
def EndsStream (bs : List UInt8) : Prop :=
  ∀ code tail number, bs = code ++ tail → Spells code number → Opcode.ofNumber? number = none

/-- **The bytes of a stream** of instructions that starts at an address. -/
inductive StreamBytes : UInt32 → List UInt8 → List Instr → Prop
  | done {address : UInt32} {bs : List UInt8} (h : EndsStream bs) : StreamBytes address bs []
  | cons {address : UInt32} {bs rest : List UInt8} {i : Instr} {is : List Instr}
    (hi : InstrBytes address bs i) (h : StreamBytes i.next rest is) :
    StreamBytes address (bs ++ rest) (i :: is)

/-- **The bytes of groups of locals**: a size and a number for each group, then two zeros. -/
inductive GroupBytes : List UInt8 → List LocalGroup → Prop
  | done : GroupBytes [0, 0] []
  | cons {size count : UInt8} {w : Width} {bs : List UInt8} {groups : List LocalGroup}
    (hw : Width.ofBytes? size = some w) (h : GroupBytes bs groups) :
    GroupBytes (size :: count :: bs) (⟨w, count.toNat⟩ :: groups)

/-- The type byte of a calling convention. -/
def Convention.typeByte : Convention → UInt8
  | stackArguments => 0xC0
  | localArguments => 0xC1

/-- **The format of routines**: the type byte, the groups of locals and the stream of instructions,
which reaches to the end of memory. -/
def HasFormat (m : Memory) (address : UInt32) (convention : Convention)
    (groups : List LocalGroup) (instrs : List Instr) : Prop :=
  ∃ groupBytes stream,
    m.bytes.toList.drop address.toNat = convention.typeByte :: groupBytes ++ stream ∧
    GroupBytes groupBytes groups ∧
    StreamBytes (address + UInt32.ofNat (groupBytes.length + 1)) stream instrs

/-! ## Opcode numbers -/

theorem decode_two_masked (b c : UInt8) :
    Bytes.decode [b, c] &&& 0x3FFF = Bytes.decode [b &&& 0x3F, c] := by
  have hb := b.toNat_lt
  have hc := c.toNat_lt
  have hlow : (b &&& 0x3F).toNat = b.toNat % 2 ^ 6 := by
    rw [UInt8.toNat_and]
    exact Nat.and_two_pow_sub_one_eq_mod b.toNat 6
  apply UInt32.toNat_inj.mp
  rw [UInt32.toNat_and]
  refine (Nat.and_two_pow_sub_one_eq_mod _ 14).trans ?_
  simp only [Bytes.decode, List.foldl_cons, List.foldl_nil, UInt32.toNat_add, UInt32.toNat_mul,
    UInt8.toNat_toUInt32, hlow, UInt32.reduceToNat]
  omega

theorem decode_four_masked (b c d e : UInt8) :
    Bytes.decode [b, c, d, e] &&& 0x0FFFFFFF = Bytes.decode [b &&& 0x0F, c, d, e] := by
  have hb := b.toNat_lt
  have hc := c.toNat_lt
  have hd := d.toNat_lt
  have he := e.toNat_lt
  have hlow : (b &&& 0x0F).toNat = b.toNat % 2 ^ 4 := by
    rw [UInt8.toNat_and]
    exact Nat.and_two_pow_sub_one_eq_mod b.toNat 4
  apply UInt32.toNat_inj.mp
  rw [UInt32.toNat_and]
  refine (Nat.and_two_pow_sub_one_eq_mod _ 28).trans ?_
  simp only [Bytes.decode, List.foldl_cons, List.foldl_nil, UInt32.toNat_add, UInt32.toNat_mul,
    UInt8.toNat_toUInt32, hlow, UInt32.reduceToNat]
  omega

theorem decode_one_masked {b : UInt8} (h : b < 0x80) :
    Bytes.decode [b] &&& 0x7F = Bytes.decode [b] := by
  have hb : b.toNat < 128 := h
  apply UInt32.toNat_inj.mp
  rw [UInt32.toNat_and]
  refine (Nat.and_two_pow_sub_one_eq_mod _ 7).trans ?_
  simp only [Bytes.decode, List.foldl_cons, List.foldl_nil, UInt32.toNat_add, UInt32.toNat_mul,
    UInt8.toNat_toUInt32, UInt32.reduceToNat]
  omega

namespace Cursor

variable {c c' : Cursor}

/-- **Reading an opcode number** succeeds if one is spelled at the cursor. -/
theorem opcodeNumber_ok_iff (hm : c.memory.size ≤ 0x80000000) {number : UInt32} :
    c.opcodeNumber = .ok (number, c') ↔ ∃ bs, c.Moves bs c' ∧ Spells bs number := by
  unfold opcodeNumber
  rw [bind_ok_iff]
  constructor
  · rintro ⟨first, hpeek, h⟩
    obtain ⟨tail, hfirst⟩ := peek_ok_iff.mp hpeek
    split at h
    · next hlarge =>
      obtain ⟨⟨v, c₁⟩, hnext, he⟩ := bind_ok_iff.mp h
      obtain ⟨bs, hmoves, hbs, rfl⟩ := (next_ok_iff hm).mp hnext
      cases he
      rw [hmoves.rest] at hfirst
      match bs, hbs with
      | [b, c, d, e], _ =>
        obtain rfl : b = first := List.head_eq_of_cons_eq hfirst
        refine ⟨_, hmoves, ?_⟩
        rw [decode_four_masked]
        exact .four b c d e hlarge
    · next hsmall =>
      split at h
      · next hlarge =>
        obtain ⟨⟨v, c₁⟩, hnext, he⟩ := bind_ok_iff.mp h
        obtain ⟨bs, hmoves, hbs, rfl⟩ := (next_ok_iff hm).mp hnext
        cases he
        rw [hmoves.rest] at hfirst
        match bs, hbs with
        | [b, c], _ =>
          obtain rfl : b = first := List.head_eq_of_cons_eq hfirst
          refine ⟨_, hmoves, ?_⟩
          rw [decode_two_masked]
          exact .two b c hlarge (UInt8.not_le.mp hsmall)
      · next hlow =>
        obtain ⟨⟨v, c₁⟩, hnext, he⟩ := bind_ok_iff.mp h
        obtain ⟨bs, hmoves, hbs, rfl⟩ := (next_ok_iff hm).mp hnext
        cases he
        rw [hmoves.rest] at hfirst
        match bs, hbs with
        | [b], _ =>
          obtain rfl : b = first := List.head_eq_of_cons_eq hfirst
          have hb : b < 0x80 := UInt8.not_le.mp hlow
          refine ⟨_, hmoves, ?_⟩
          rw [decode_one_masked hb]
          exact .one b hb
  · rintro ⟨bs, hmoves, hspells⟩
    have hpeek : ∀ b tail, bs = b :: tail → c.peek = .ok b := by
      rintro b tail rfl
      exact peek_ok_iff.mpr ⟨_, hmoves.rest⟩
    cases hspells with
    | one b h =>
      refine ⟨b, hpeek b [] rfl, ?_⟩
      have h1 : ¬ 0x80 ≤ b := UInt8.not_le.mpr h
      have h2 : ¬ 0xC0 ≤ b := fun h' => h1 (UInt8.le_trans (by decide) h')
      rw [if_neg h2, if_neg h1, bind_ok_iff]
      refine ⟨_, (next_ok_iff hm).mpr ⟨_, hmoves, rfl, rfl⟩, ?_⟩
      exact congrArg (fun v => Except.ok (v, c')) (decode_one_masked h)
    | two b d h h' =>
      refine ⟨b, hpeek b [d] rfl, ?_⟩
      rw [if_neg (UInt8.not_le.mpr h'), if_pos h, bind_ok_iff]
      refine ⟨_, (next_ok_iff hm).mpr ⟨_, hmoves, rfl, rfl⟩, ?_⟩
      exact congrArg (fun v => Except.ok (v, c')) (decode_two_masked b d)
    | four b d e f h =>
      refine ⟨b, hpeek b [d, e, f] rfl, ?_⟩
      rw [if_pos h, bind_ok_iff]
      refine ⟨_, (next_ok_iff hm).mpr ⟨_, hmoves, rfl, rfl⟩, ?_⟩
      exact congrArg (fun v => Except.ok (v, c')) (decode_four_masked b d e f)

/-! ## Operands -/

theorem operand_ok_iff (hm : c.memory.size ≤ 0x80000000) {mode : Mode} {o : Operand} :
    c.operand mode = .ok (o, c') ↔
      ∃ data, c.Moves data c' ∧ data.length = mode.dataBytes ∧ o = mode.ofData data := by
  unfold operand Mode.dataBytes Mode.ofData
  cases mode.field with
  | none =>
    constructor
    · rintro ⟨⟩
      exact ⟨[], .nil c, rfl, rfl⟩
    · rintro ⟨data, hmoves, hlength, rfl⟩
      obtain rfl := List.eq_nil_of_length_eq_zero hlength
      rw [hmoves.unique (.nil c)]
  | some w =>
    dsimp only
    rw [bind_ok_iff]
    constructor
    · rintro ⟨⟨v, c₁⟩, hnext, he⟩
      obtain ⟨data, hmoves, hlength, rfl⟩ := (next_ok_iff hm).mp hnext
      cases he
      exact ⟨data, hmoves, hlength, rfl⟩
    · rintro ⟨data, hmoves, hlength, rfl⟩
      exact ⟨_, (next_ok_iff hm).mpr ⟨data, hmoves, hlength, rfl⟩, rfl⟩

theorem operandOfNibble_ok_iff (hm : c.memory.size ≤ 0x80000000) {routine : UInt32} {nibble : UInt8}
    {o : Operand} : c.operandOfNibble routine nibble = .ok (o, c') ↔
      ∃ mode data, Mode.ofNibble? nibble = some mode ∧ c.Moves data c' ∧
        data.length = mode.dataBytes ∧ o = mode.ofData data := by
  unfold operandOfNibble
  cases Mode.ofNibble? nibble with
  | none => simp
  | some mode =>
    dsimp only
    rw [operand_ok_iff hm]
    simp

theorem nibbles_cons_take (b : UInt8) (bs : List UInt8) (n : Nat) :
    (nibbles (b :: bs)).take (n + 2) = (b &&& 0x0F) :: (b >>> 4) :: (nibbles bs).take n := by
  simp [nibbles]

/-- **Reading operands** succeeds if the mode bytes and the data are there. -/
theorem operands_ok_iff {routine : UInt32} {modes data data' : Cursor} {roles : List Role}
    {all : List (Role × Operand)} (hm : modes.memory.size ≤ 0x80000000)
    (hd : data.memory.size ≤ 0x80000000) :
    operands routine modes data roles = .ok (all, data') ↔
      ∃ mb modes' db os, modes.Moves mb modes' ∧ mb.length = (roles.length + 1) / 2 ∧
        data.Moves db data' ∧ OperandBytes ((nibbles mb).take roles.length) db os ∧
        all = roles.zip os := by
  induction roles using List.twoStepInduction generalizing modes data all data' with
  | nil =>
    constructor
    · rintro ⟨⟩
      exact ⟨[], modes, [], [], .nil _, rfl, .nil _, .nil, rfl⟩
    · rintro ⟨mb, modes', db, os, -, -, hmoves, hos, rfl⟩
      rw [List.length_nil, List.take_zero] at hos
      cases hos
      rw [hmoves.unique (.nil data)]
      rfl
  | singleton r =>
    rw [operands, bind_ok_iff]
    constructor
    · rintro ⟨⟨b, modes'⟩, hb, h⟩
      have hb := (nextByte_ok_iff hm).mp hb
      obtain ⟨⟨o, d⟩, ho, he⟩ := bind_ok_iff.mp h
      obtain ⟨mode, db, hmode, hmoves, hlength, rfl⟩ := (operandOfNibble_ok_iff hd).mp ho
      cases he
      have hone := OperandBytes.cons hmode hlength .nil
      rw [List.append_nil] at hone
      exact ⟨[b], modes', db, _, hb, by simp, hmoves, hone, rfl⟩
    · rintro ⟨mb, modes', db, os, hb, hlength, hmoves, hos, rfl⟩
      obtain ⟨b, rfl⟩ := List.length_eq_one_iff.mp (by simpa using hlength)
      refine ⟨(b, modes'), (nextByte_ok_iff hm).mpr hb, ?_⟩
      have htake : (nibbles [b]).take [r].length = [b &&& 0x0F] := rfl
      rw [htake] at hos
      obtain _ | ⟨hmode, hlength', hnil⟩ := hos
      cases hnil
      rw [List.append_nil] at hmoves
      dsimp only
      rw [bind_ok_iff]
      exact ⟨_, (operandOfNibble_ok_iff hd).mpr ⟨_, _, hmode, hmoves, hlength', rfl⟩, rfl⟩
  | cons_cons r₁ r₂ roles ih _ =>
    rw [operands, bind_ok_iff]
    constructor
    · rintro ⟨⟨b, modes₁⟩, hb, h⟩
      have hb := (nextByte_ok_iff hm).mp hb
      obtain ⟨⟨o₁, d₁⟩, ho₁, h⟩ := bind_ok_iff.mp h
      obtain ⟨mode₁, db₁, hmode₁, hmoves₁, hlength₁, rfl⟩ := (operandOfNibble_ok_iff hd).mp ho₁
      have hd₁ : d₁.memory.size ≤ 0x80000000 := hmoves₁.memory ▸ hd
      obtain ⟨⟨o₂, d₂⟩, ho₂, h⟩ := bind_ok_iff.mp h
      obtain ⟨mode₂, db₂, hmode₂, hmoves₂, hlength₂, rfl⟩ := (operandOfNibble_ok_iff hd₁).mp ho₂
      have hd₂ : d₂.memory.size ≤ 0x80000000 := hmoves₂.memory ▸ hd₁
      obtain ⟨⟨more, d₃⟩, hmore, he⟩ := bind_ok_iff.mp h
      obtain ⟨mb, modes', db, os, hmb, hlength, hmoves, hos, rfl⟩ :=
        (ih (hb.memory ▸ hm) hd₂).mp hmore
      cases he
      refine ⟨[b] ++ mb, modes', db₁ ++ (db₂ ++ db), mode₁.ofData db₁ :: mode₂.ofData db₂ :: os,
        hb.trans hmb, ?_, hmoves₁.trans (hmoves₂.trans hmoves), ?_, rfl⟩
      · simp only [List.length_append, List.length_cons, List.length_nil]
        omega
      · rw [List.singleton_append, List.length_cons, List.length_cons, nibbles_cons_take]
        exact .cons hmode₁ hlength₁ (.cons hmode₂ hlength₂ hos)
    · rintro ⟨mb, modes', db, os, hmb, hlength, hmoves, hos, rfl⟩
      obtain ⟨b, mb, rfl⟩ : ∃ b mb', mb = b :: mb' := by
        refine List.exists_cons_of_length_pos ?_
        rw [hlength, List.length_cons]
        omega
      rw [List.length_cons, List.length_cons, nibbles_cons_take] at hos
      obtain _ | ⟨hmode₁, hlength₁, hos⟩ := hos
      obtain _ | ⟨hmode₂, hlength₂, hos⟩ := hos
      rw [← List.singleton_append] at hmb
      obtain ⟨modes₁, hb, hmb⟩ := hmb.split
      obtain ⟨d₁, hmoves₁, hmoves⟩ := hmoves.split
      obtain ⟨d₂, hmoves₂, hmoves⟩ := hmoves.split
      have hd₁ : d₁.memory.size ≤ 0x80000000 := hmoves₁.memory ▸ hd
      have hd₂ : d₂.memory.size ≤ 0x80000000 := hmoves₂.memory ▸ hd₁
      have hlength' : mb.length = (roles.length + 1) / 2 := by
        simp only [List.length_cons] at hlength
        omega
      refine ⟨(b, modes₁), (nextByte_ok_iff hm).mpr hb, ?_⟩
      dsimp only
      rw [bind_ok_iff]
      refine ⟨_, (operandOfNibble_ok_iff hd).mpr ⟨_, _, hmode₁, hmoves₁, hlength₁, rfl⟩, ?_⟩
      dsimp only
      rw [bind_ok_iff]
      refine ⟨_, (operandOfNibble_ok_iff hd₁).mpr ⟨_, _, hmode₂, hmoves₂, hlength₂, rfl⟩, ?_⟩
      dsimp only
      rw [bind_ok_iff]
      exact ⟨_, (ih (hb.memory ▸ hm) hd₂).mpr
        ⟨mb, modes', _, _, hmb, hlength', hmoves, hos, rfl⟩, rfl⟩

/-- **Reading an instruction** whose opcode is known. -/
theorem instr_ok_iff (hm : c.memory.size ≤ 0x80000000) {routine address : UInt32} {opcode : Opcode}
    {i : Instr} : c.instr routine address opcode = .ok (i, c') ↔
      ∃ modes data os, c.Moves (modes ++ data) c' ∧
        modes.length = (opcode.roles.length + 1) / 2 ∧
        OperandBytes ((nibbles modes).take opcode.roles.length) data os ∧
        i = ⟨opcode, opcode.pick os .load, opcode.pick os .store, address, c'.address⟩ := by
  have hd : (c.advance ((opcode.roles.length + 1) / 2)).memory.size ≤ 0x80000000 := hm
  unfold instr
  dsimp only
  rw [bind_ok_iff]
  constructor
  · rintro ⟨⟨all, c₁⟩, hall, he⟩
    obtain ⟨mb, modes', db, os, hmb, hlength, hmoves, hos, rfl⟩ := (operands_ok_iff hm hd).mp hall
    cases he
    rw [← hlength, ← hmb.eq_advance] at hmoves
    exact ⟨mb, db, os, hmb.trans hmoves, hlength, hos, rfl⟩
  · rintro ⟨modes, data, os, hmoves, hlength, hos, rfl⟩
    obtain ⟨c₁, hmb, hmoves⟩ := hmoves.split
    refine ⟨(opcode.roles.zip os, c'), (operands_ok_iff hm hd).mpr
      ⟨modes, c₁, data, os, hmb, hlength, ?_, hos, rfl⟩, rfl⟩
    rw [← hlength, ← hmb.eq_advance]
    exact hmoves

/-! ## Groups of locals -/

/-- **Reading the groups of locals** gives what their bytes say. -/
theorem groupBytes_of_localGroups (hm : c.memory.size ≤ 0x80000000) {routine : UInt32} {fuel : Nat}
    {groups : List LocalGroup} (h : c.localGroups routine fuel = .ok (groups, c')) :
    ∃ bs, c.Moves bs c' ∧ GroupBytes bs groups := by
  induction fuel generalizing c groups with
  | zero => cases h
  | succ fuel ih =>
    rw [localGroups] at h
    obtain ⟨⟨size, c₁⟩, hsize, h₁⟩ := bind_ok_iff.mp h
    obtain ⟨⟨count, c₂⟩, hcount, h₂⟩ := bind_ok_iff.mp h₁
    have hsize := (nextByte_ok_iff hm).mp hsize
    have hm₁ : c₁.memory.size ≤ 0x80000000 := hsize.memory ▸ hm
    have hcount := (nextByte_ok_iff hm₁).mp hcount
    have hm₂ : c₂.memory.size ≤ 0x80000000 := hcount.memory ▸ hm₁
    dsimp only at h₂
    by_cases hzero : size = 0 ∧ count = 0
    · rw [if_pos hzero] at h₂
      obtain ⟨rfl, rfl⟩ := hzero
      obtain ⟨rfl, rfl⟩ := Prod.mk.inj (Except.ok.inj h₂)
      exact ⟨_, hsize.trans hcount, .done⟩
    · rw [if_neg hzero] at h₂
      cases hw : Width.ofBytes? size with
      | none =>
        rw [hw] at h₂
        cases h₂
      | some w =>
        rw [hw] at h₂
        obtain ⟨⟨more, c₃⟩, hmore, he⟩ := bind_ok_iff.mp h₂
        obtain ⟨rfl, rfl⟩ := Prod.mk.inj (Except.ok.inj he)
        obtain ⟨bs, hmoves, hbs⟩ := ih hm₂ hmore
        exact ⟨_, hsize.trans (hcount.trans hmoves), .cons hw hbs⟩

theorem localGroups_of_groupBytes (hm : c.memory.size ≤ 0x80000000) {routine : UInt32} {fuel : Nat}
    {bs : List UInt8} {groups : List LocalGroup} (hmoves : c.Moves bs c')
    (hbs : GroupBytes bs groups) (hfuel : bs.length < fuel) :
    c.localGroups routine fuel = .ok (groups, c') := by
  induction hbs generalizing c fuel with
  | done =>
    obtain ⟨fuel, rfl⟩ := Nat.exists_eq_succ_of_ne_zero (Nat.ne_zero_of_lt hfuel)
    obtain ⟨c₁, hsize, hcount⟩ := Moves.split (a := [0]) hmoves
    have hm₁ : c₁.memory.size ≤ 0x80000000 := hsize.memory ▸ hm
    rw [localGroups, bind_ok_iff]
    refine ⟨_, (nextByte_ok_iff hm).mpr hsize, ?_⟩
    dsimp only
    rw [bind_ok_iff]
    exact ⟨_, (nextByte_ok_iff hm₁).mpr hcount, rfl⟩
  | @cons size count w bs groups hw hbs ih =>
    obtain ⟨fuel, rfl⟩ := Nat.exists_eq_succ_of_ne_zero (Nat.ne_zero_of_lt hfuel)
    obtain ⟨c₁, hsize, hmoves⟩ := Moves.split (a := [size]) hmoves
    obtain ⟨c₂, hcount, hmoves⟩ := Moves.split (a := [count]) hmoves
    have hm₁ : c₁.memory.size ≤ 0x80000000 := hsize.memory ▸ hm
    have hm₂ : c₂.memory.size ≤ 0x80000000 := hcount.memory ▸ hm₁
    have hmore : c₂.localGroups routine fuel = .ok (groups, c') := by
      refine ih hm₂ hmoves ?_
      simp only [List.length_cons] at hfuel
      omega
    have hzero : ¬ (size = 0 ∧ count = 0) := by
      rintro ⟨rfl, -⟩
      cases hw
    rw [localGroups, bind_ok_iff]
    refine ⟨_, (nextByte_ok_iff hm).mpr hsize, ?_⟩
    dsimp only
    rw [bind_ok_iff]
    refine ⟨_, (nextByte_ok_iff hm₁).mpr hcount, ?_⟩
    dsimp only
    rw [if_neg hzero, hw]
    exact bind_ok_iff.mpr ⟨_, hmore, rfl⟩

/-! ## Streams -/

theorem endsStream_iff (hm : c.memory.size ≤ 0x80000000) : EndsStream c.rest ↔
    ∀ number c', c.opcodeNumber = .ok (number, c') → Opcode.ofNumber? number = none := by
  constructor
  · intro h number c' hn
    obtain ⟨bs, hmoves, hspells⟩ := (opcodeNumber_ok_iff hm).mp hn
    exact h bs c'.rest number hmoves.rest hspells
  · intro h code tail number hrest hspells
    obtain ⟨c', hmoves, -⟩ := exists_moves hm hrest
    exact h number c' ((opcodeNumber_ok_iff hm).mpr ⟨code, hmoves, hspells⟩)

/-- The instruction at the cursor, and the cursor after it. -/
def HasInstr (c : Cursor) (routine : UInt32) (i : Instr) (c' : Cursor) : Prop :=
  ∃ number modes opcode, c.opcodeNumber = .ok (number, modes) ∧
    Opcode.ofNumber? number = some opcode ∧ modes.instr routine c.address opcode = .ok (i, c')

theorem Spells.length_pos {bs : List UInt8} {number : UInt32} (h : Spells bs number) :
    0 < bs.length := by
  cases h <;> simp

/-- **An instruction is at the cursor** if its bytes are. -/
theorem hasInstr_iff (hm : c.memory.size ≤ 0x80000000) {routine : UInt32} {i : Instr} :
    c.HasInstr routine i c' ↔
      ∃ bs, c.Moves bs c' ∧ InstrBytes c.address bs i ∧ i.next = c'.address ∧ 0 < bs.length := by
  constructor
  · rintro ⟨number, modes, opcode, hn, ho, hi⟩
    obtain ⟨code, hcode, hspells⟩ := (opcodeNumber_ok_iff hm).mp hn
    obtain ⟨mb, data, os, hmoves, hlength, hos, rfl⟩ := (instr_ok_iff (hcode.memory ▸ hm)).mp hi
    have hall := hcode.trans hmoves
    have hnext : c'.address = c.address + UInt32.ofNat (code ++ (mb ++ data)).length :=
      congrArg Cursor.address hall.eq_advance
    have hpos := Spells.length_pos hspells
    refine ⟨_, hall, ?_, rfl, by rw [List.length_append]; omega⟩
    rw [hnext]
    exact .intro hspells ho hlength hos
  · rintro ⟨bs, hmoves, hi, hnext, -⟩
    cases hi with
    | intro hspells ho hlength hos =>
      have hnext' := hmoves.eq_advance
      obtain ⟨modes, hcode, hmoves⟩ := hmoves.split
      refine ⟨_, modes, _, (opcodeNumber_ok_iff hm).mpr ⟨_, hcode, hspells⟩, ho, ?_⟩
      refine (instr_ok_iff (hcode.memory ▸ hm)).mpr ⟨_, _, _, hmoves, hlength, hos, ?_⟩
      rw [← hnext]

theorem streamBytes_iff (hm : c.memory.size ≤ 0x80000000) (routine : UInt32) {is : List Instr} :
    StreamBytes c.address c.rest is ↔ (is = [] ∧ EndsStream c.rest) ∨
      ∃ i c' is', c.HasInstr routine i c' ∧ is = i :: is' ∧ StreamBytes c'.address c'.rest is' := by
  constructor
  · generalize hbs : c.rest = bs
    generalize ha : c.address = address
    intro h
    cases h with
    | done h => exact Or.inl ⟨rfl, h⟩
    | @cons _ bs rest i is hi h =>
      obtain ⟨c', hmoves, hrest⟩ := exists_moves hm hbs
      subst ha
      have hnext : i.next = c'.address := by
        cases hi
        exact (congrArg Cursor.address hmoves.eq_advance).symm
      have hpos : 0 < bs.length := by
        cases hi with
        | intro hspells =>
          have := Spells.length_pos hspells
          rw [List.length_append]
          omega
      refine Or.inr ⟨i, c', is, (hasInstr_iff hm).mpr ⟨bs, hmoves, hi, hnext, hpos⟩, rfl, ?_⟩
      rw [hrest, ← hnext]
      exact h
  · rintro (⟨rfl, h⟩ | ⟨i, c', is', hi, rfl, h⟩)
    · exact .done h
    · obtain ⟨bs, hmoves, hbytes, hnext, -⟩ := (hasInstr_iff hm).mp hi
      rw [hmoves.rest]
      exact .cons hbytes (hnext ▸ h)

theorem HasInstr.unique {routine : UInt32} {i j : Instr} {c₁ c₂ : Cursor}
    (h : c.HasInstr routine i c₁) (h' : c.HasInstr routine j c₂) : i = j ∧ c₁ = c₂ := by
  obtain ⟨number, modes, opcode, hn, ho, hi⟩ := h
  obtain ⟨number', modes', opcode', hn', ho', hi'⟩ := h'
  obtain ⟨rfl, rfl⟩ := Prod.mk.inj (Except.ok.inj (hn.symm.trans hn'))
  obtain rfl := Option.some.inj (ho.symm.trans ho')
  exact Prod.mk.inj (Except.ok.inj (hi.symm.trans hi'))

theorem HasInstr.not_endsStream (hm : c.memory.size ≤ 0x80000000) {routine : UInt32} {i : Instr}
    (h : c.HasInstr routine i c') : ¬ EndsStream c.rest := by
  intro hends
  obtain ⟨number, modes, opcode, hn, ho, -⟩ := h
  rw [(endsStream_iff hm).mp hends number modes hn] at ho
  cases ho

theorem streamBytes_eq_nil (hm : c.memory.size ≤ 0x80000000) (h : EndsStream c.rest) {is : List Instr}
    (hs : StreamBytes c.address c.rest is) : is = [] := by
  rcases (streamBytes_iff hm 0).mp hs with ⟨rfl, -⟩ | ⟨i, c', -, hi, -⟩
  · rfl
  · exact absurd h (hi.not_endsStream hm)

end Cursor

namespace Listing

open Cursor

variable {c : Cursor} {routine : UInt32}

/-- One step of a scan: the stream ends, or goes on after an instruction, or is cut short. -/
theorem scanFrom_succ (hm : c.memory.size ≤ 0x80000000) (routine : UInt32) (fuel : Nat)
    (seen : List Instr) :
    (EndsStream c.rest ∧ scanFrom routine (fuel + 1) c seen = ⟨seen.reverse, none⟩) ∨
    (∃ i c', c.HasInstr routine i c' ∧
      scanFrom routine (fuel + 1) c seen = scanFrom routine fuel c' (i :: seen)) ∨
    (¬ EndsStream c.rest ∧ (∀ i c', ¬ c.HasInstr routine i c') ∧
      ∃ fault, scanFrom routine (fuel + 1) c seen = ⟨seen.reverse, some fault⟩) := by
  rw [scanFrom]
  cases hn : c.opcodeNumber with
  | error f =>
    refine Or.inl ⟨(endsStream_iff hm).mpr fun number c' h => ?_, rfl⟩
    rw [hn] at h
    cases h
  | ok p =>
    obtain ⟨number, modes⟩ := p
    dsimp only
    cases ho : Opcode.ofNumber? number with
    | none =>
      refine Or.inl ⟨(endsStream_iff hm).mpr fun number' c' h => ?_, rfl⟩
      rw [hn] at h
      cases h
      exact ho
    | some opcode =>
      dsimp only
      cases hi : modes.instr routine c.address opcode with
      | ok q => exact Or.inr (Or.inl ⟨q.1, q.2, ⟨number, modes, opcode, hn, ho, hi⟩, rfl⟩)
      | error f =>
        refine Or.inr (Or.inr ⟨fun h => ?_, ?_, f, rfl⟩)
        · have := (endsStream_iff hm).mp h number modes hn
          rw [ho] at this
          cases this
        · rintro i c' ⟨number', modes', opcode', hn', ho', hi'⟩
          rw [hn] at hn'
          cases hn'
          rw [ho] at ho'
          cases ho'
          rw [hi] at hi'
          cases hi'

/-- **A scan that is not cut short** lists the instructions of the stream at the cursor. -/
theorem scanFrom_eq_iff {fuel : Nat} (hm : c.memory.size ≤ 0x80000000) (hfuel : c.rest.length ≤ fuel)
    {seen all : List Instr} : scanFrom routine fuel c seen = ⟨all, none⟩ ↔
      ∃ is, StreamBytes c.address c.rest is ∧ all = seen.reverse ++ is := by
  induction fuel generalizing c seen with
  | zero =>
    have hnil : c.rest = [] := List.eq_nil_of_length_eq_zero (Nat.le_zero.mp hfuel)
    have hends : EndsStream c.rest := by
      intro code tail number hrest hspells
      have hpos := Spells.length_pos hspells
      rw [hnil] at hrest
      rw [(List.append_eq_nil_iff.mp hrest.symm).1] at hpos
      cases hpos
    constructor
    · intro h
      exact ⟨[], .done hends, by simpa [scanFrom] using h.symm⟩
    · rintro ⟨is, hs, rfl⟩
      rw [streamBytes_eq_nil hm hends hs, List.append_nil]
      rfl
  | succ fuel ih =>
    rcases scanFrom_succ hm routine fuel seen with ⟨hends, he⟩ | ⟨i, c', hi, he⟩ | ⟨hgoes, hnone, f, he⟩
    · rw [he]
      constructor
      · intro h
        exact ⟨[], .done hends, by simpa using h.symm⟩
      · rintro ⟨is, hs, rfl⟩
        rw [streamBytes_eq_nil hm hends hs, List.append_nil]
    · obtain ⟨bs, hmoves, -, -, hpos⟩ := (hasInstr_iff hm).mp hi
      have hfuel' : c'.rest.length ≤ fuel := by
        rw [hmoves.rest, List.length_append] at hfuel
        omega
      rw [he, ih (hmoves.memory ▸ hm) hfuel']
      constructor
      · rintro ⟨is, hs, rfl⟩
        refine ⟨i :: is, (streamBytes_iff hm routine).mpr (Or.inr ⟨i, c', is, hi, rfl, hs⟩), ?_⟩
        simp
      · rintro ⟨is, hs, rfl⟩
        rcases (streamBytes_iff hm routine).mp hs with ⟨-, h⟩ | ⟨j, d, is', hj, rfl, hs'⟩
        · exact absurd h (hi.not_endsStream hm)
        · obtain ⟨rfl, rfl⟩ := hi.unique hj
          exact ⟨is', hs', by simp⟩
    · rw [he]
      refine ⟨nofun, ?_⟩
      rintro ⟨is, hs, -⟩
      rcases (streamBytes_iff hm routine).mp hs with ⟨-, h⟩ | ⟨i, c', -, hi, -⟩
      · exact absurd h hgoes
      · exact absurd hi (hnone i c')

/-- The addresses of a scan increase, also if it is cut short. -/
theorem scanFrom_increasing (hm : c.memory.size ≤ 0x80000000) (routine : UInt32) (fuel : Nat)
    (seen : List Instr) :
    ∃ is, (scanFrom routine fuel c seen).instrs = seen.reverse ++ is ∧
      (is.map (·.address)).Pairwise (· < ·) ∧ ∀ i ∈ is, c.address ≤ i.address := by
  induction fuel generalizing c seen with
  | zero => exact ⟨[], by simp [scanFrom], .nil, by simp⟩
  | succ fuel ih =>
    rcases scanFrom_succ hm routine fuel seen with ⟨-, he⟩ | ⟨i, c', hi, he⟩ | ⟨-, -, f, he⟩
    · exact ⟨[], by simp [he], .nil, by simp⟩
    · obtain ⟨bs, hmoves, hbytes, -, hpos⟩ := (hasInstr_iff hm).mp hi
      obtain ⟨is, hall, hpair, hle⟩ := ih (hmoves.memory ▸ hm) (i :: seen)
      have haddress : i.address = c.address := by
        cases hbytes
        rfl
      have hlt : c.address < c'.address := by
        have := hmoves.address
        rw [UInt32.lt_iff_toNat_lt]
        omega
      refine ⟨i :: is, by simp [he, hall], ?_, ?_⟩
      · refine List.pairwise_cons.mpr ⟨fun a ha => ?_, hpair⟩
        obtain ⟨j, hj, rfl⟩ := List.mem_map.mp ha
        change i.address < j.address
        rw [haddress]
        exact UInt32.lt_of_lt_of_le hlt (hle j hj)
      · intro j hj
        rcases List.mem_cons.mp hj with rfl | hj
        · exact UInt32.le_of_eq haddress.symm
        · exact UInt32.le_of_lt (UInt32.lt_of_lt_of_le hlt (hle j hj))
    · exact ⟨[], by simp [he], .nil, by simp⟩

/-- **The instructions of a stream stand at increasing addresses.** -/
theorem scan_increasing (hm : c.memory.size ≤ 0x80000000) (routine : UInt32) :
    ((scan routine c).instrs.map (·.address)).Pairwise (· < ·) := by
  obtain ⟨is, hall, hpair, -⟩ := scanFrom_increasing hm routine c.memory.size []
  rwa [scan, hall, List.reverse_nil, List.nil_append]

theorem scan_nodup (hm : c.memory.size ≤ 0x80000000) (routine : UInt32) :
    ((scan routine c).instrs.map (·.address)).Nodup :=
  (scan_increasing hm routine).imp UInt32.ne_of_lt

end Listing

/-! ## Routines -/

theorem Convention.ofTypeByte_ok_iff {b : UInt8} {convention : Convention} :
    ofTypeByte b = .ok convention ↔ b = convention.typeByte := by
  unfold ofTypeByte
  by_cases h0 : b = 0xC0
  · rw [if_pos h0]
    subst h0
    cases convention <;> decide
  · rw [if_neg h0]
    by_cases h1 : b = 0xC1
    · rw [if_pos h1]
      subst h1
      cases convention <;> decide
    · rw [if_neg h1]
      have hne : b ≠ convention.typeByte := by
        cases convention with
        | stackArguments => exact h0
        | localArguments => exact h1
      split <;> simp [hne]

theorem mapError_ok_iff {ε ε' α : Type} {x : Except ε α} {f : ε → ε'} {a : α} :
    x.mapError f = .ok a ↔ x = .ok a := by
  cases x with
  | error e => simp [Except.mapError]
  | ok a => simp [Except.mapError]

namespace Routine

variable {m : Memory} {address ramStart : UInt32} {convention : Convention}
  {groups : List LocalGroup} {instrs : List Instr} {code : Code}

/-- **Reading a header** succeeds if the type byte and the groups of locals are there. -/
theorem header_ok_iff (hm : m.size ≤ 0x80000000) {c : Cursor} :
    header m address = .ok (convention, groups, c) ↔
      ∃ bs, Cursor.Moves ⟨m, address⟩ (convention.typeByte :: bs) c ∧ GroupBytes bs groups := by
  unfold header
  rw [bind_ok_iff]
  constructor
  · rintro ⟨⟨b, c₁⟩, hb, h⟩
    have hb := (Cursor.nextByte_ok_iff hm).mp hb
    obtain ⟨convention', hconvention, h⟩ := bind_ok_iff.mp h
    obtain ⟨⟨groups', c₂⟩, hgroups, he⟩ := bind_ok_iff.mp h
    obtain ⟨bs, hmoves, hbs⟩ := Cursor.groupBytes_of_localGroups (hb.memory ▸ hm) hgroups
    cases he
    obtain rfl := Convention.ofTypeByte_ok_iff.mp (mapError_ok_iff.mp hconvention)
    exact ⟨bs, hb.trans hmoves, hbs⟩
  · rintro ⟨bs, hmoves, hbs⟩
    have hlength : bs.length < m.size + 1 := by
      have := congrArg List.length hmoves.rest
      rw [Cursor.length_rest] at this
      simp only [List.length_append, List.length_cons] at this
      omega
    obtain ⟨c₁, hb, hmoves⟩ := Cursor.Moves.split (a := [convention.typeByte]) hmoves
    refine ⟨_, (Cursor.nextByte_ok_iff hm).mpr hb, ?_⟩
    dsimp only
    rw [bind_ok_iff]
    refine ⟨convention, mapError_ok_iff.mpr (Convention.ofTypeByte_ok_iff.mpr rfl), ?_⟩
    rw [bind_ok_iff]
    exact ⟨(groups, c),
      Cursor.localGroups_of_groupBytes (hb.memory ▸ hm) hmoves hbs hlength, rfl⟩

/-- **A routine has the format** if reading its header and its stream succeeds. -/
theorem hasFormat_iff (hm : m.size ≤ 0x80000000) : HasFormat m address convention groups instrs ↔
    ∃ c, header m address = .ok (convention, groups, c) ∧
      Listing.scan address c = ⟨instrs, none⟩ := by
  constructor
  · rintro ⟨bs, stream, hsplit, hbs, hstream⟩
    have hrest : Cursor.rest ⟨m, address⟩ = convention.typeByte :: bs ++ stream := hsplit
    obtain ⟨c, hmoves, rfl⟩ := Cursor.exists_moves hm hrest
    refine ⟨c, (header_ok_iff hm).mpr ⟨bs, hmoves, hbs⟩, ?_⟩
    have hc : c.address = address + UInt32.ofNat (bs.length + 1) :=
      congrArg Cursor.address hmoves.eq_advance
    have hfuel : c.rest.length ≤ c.memory.size := by
      rw [Cursor.length_rest]
      omega
    refine (Listing.scanFrom_eq_iff (hmoves.memory ▸ hm) hfuel).mpr ⟨instrs, ?_, rfl⟩
    rw [hc]
    exact hstream
  · rintro ⟨c, hheader, hscan⟩
    obtain ⟨bs, hmoves, hbs⟩ := (header_ok_iff hm).mp hheader
    have hc : c.address = address + UInt32.ofNat (bs.length + 1) :=
      congrArg Cursor.address hmoves.eq_advance
    have hfuel : c.rest.length ≤ c.memory.size := by
      rw [Cursor.length_rest]
      omega
    obtain ⟨is, hstream, he⟩ :=
      (Listing.scanFrom_eq_iff (hmoves.memory ▸ hm) hfuel).mp hscan
    rw [List.reverse_nil, List.nil_append] at he
    subst he
    exact ⟨bs, c.rest, hmoves.rest, hbs, hc ▸ hstream⟩

theorem hasFormat_unique (hm : m.size ≤ 0x80000000) {convention' : Convention}
    {groups' : List LocalGroup} {instrs' : List Instr}
    (h : HasFormat m address convention groups instrs)
    (h' : HasFormat m address convention' groups' instrs') :
    convention = convention' ∧ groups = groups' ∧ instrs = instrs' := by
  obtain ⟨c, hheader, hscan⟩ := (hasFormat_iff hm).mp h
  obtain ⟨c', hheader', hscan'⟩ := (hasFormat_iff hm).mp h'
  rw [hheader] at hheader'
  cases hheader'
  rw [hscan] at hscan'
  cases hscan'
  exact ⟨rfl, rfl, rfl⟩

/-- **A parse of a routine**: its bytes have the format, each instruction stands for the effect at
its place in the code, and all jumps lead to instructions. -/
structure Parse (m : Memory) (address ramStart : UInt32) (convention : Convention)
    (groups : List LocalGroup) (instrs : List Instr) (code : Code) : Prop where
  format : HasFormat m address convention groups instrs
  effects : List.Forall₂ (fun i p => p.1 = i.address ∧
    (binder address ramStart groups).scope.lower i = .ok p.2) instrs code
  closed : ∀ target ∈ code.targets, target ∈ instrs.map (·.address)

theorem hasCode_iff (hm : m.size ≤ 0x80000000) : HasCode m address ramStart convention groups code ↔
    ∃ instrs, Parse m address ramStart convention groups instrs code := by
  constructor
  · rintro ⟨⟨c, hheader, hfault, hlower⟩, hnodup, hclosed⟩
    refine ⟨(Listing.scan address c).instrs, (hasFormat_iff hm).mpr ⟨c, hheader, ?_⟩,
      Scope.lowerAll_ok_iff.mp hlower, ?_⟩
    · rw [← hfault]
    · rw [← Scope.addresses_of_lowerAll hlower]
      exact hclosed
  · rintro ⟨instrs, hformat, heffects, hclosed⟩
    obtain ⟨c, hheader, hscan⟩ := (hasFormat_iff hm).mp hformat
    obtain ⟨bs, hmoves, -⟩ := (header_ok_iff hm).mp hheader
    have hc : c.memory.size ≤ 0x80000000 := hmoves.memory ▸ hm
    have hlower := Scope.lowerAll_ok_iff.mpr heffects
    have haddresses := Scope.addresses_of_lowerAll hlower
    have hnodup := Listing.scan_nodup hc address
    refine ⟨⟨c, hheader, by rw [hscan], by rwa [hscan]⟩, ?_, ?_⟩
    · rw [hscan] at hnodup
      rwa [haddresses]
    · intro a ha
      rw [haddresses]
      exact hclosed a ha

/-- **Reading a routine accepts exactly the format.** In a memory of at most `2 ^ 31` bytes it
succeeds if there is a parse. The parse is then unique, and the routine is the one with the body of
its code: the normal form of the list of each instruction's label and statement. -/
theorem decode_iff_parse (m : Memory) (hm : m.size ≤ 0x80000000) (address ramStart : UInt32) :
    ((∃ r, decode m address ramStart = .ok r) ↔
      ∃ convention groups instrs code,
        Parse m address ramStart convention groups instrs code) ∧
    ∀ convention groups instrs code, Parse m address ramStart convention groups instrs code →
      (∀ convention' groups' instrs' code',
        Parse m address ramStart convention' groups' instrs' code' →
          convention = convention' ∧ groups = groups' ∧ instrs = instrs' ∧ code = code') ∧
      ∃ r, decode m address ramStart = .ok r ∧
        Routine.ofBody convention address r.body = .ok r ∧
        r.convention = convention ∧ r.address = address ∧
        r.body = Body.normalize (code.labelled UInt32.toNat) (LocalGroup.declared groups) ∧
        r.body.locals = (groups.flatMap fun g => List.replicate g.count g.width).mapIdx Local.mk := by
  have hok : ∀ convention groups instrs code,
      Parse m address ramStart convention groups instrs code →
      ∃ r, decode m address ramStart = .ok r ∧ Routine.ofBody convention address r.body = .ok r ∧
        r.convention = convention ∧ r.address = address ∧ r.body = bodyOf groups code := by
    intro convention groups instrs code h
    have hcode := (hasCode_iff hm).mpr ⟨instrs, h⟩
    obtain ⟨r, hr, hc, ha, hb, -⟩ := hcode.ofBody
    exact ⟨r, decode_ok_iff.mpr ⟨convention, groups, code, hcode, hr⟩, hb ▸ hr, hc, ha, hb⟩
  refine ⟨⟨?_, ?_⟩, fun convention groups instrs code h => ⟨?_, ?_⟩⟩
  · rintro ⟨r, hr⟩
    obtain ⟨convention, groups, code, hcode, -⟩ := decode_ok_iff.mp hr
    obtain ⟨instrs, h⟩ := (hasCode_iff hm).mp hcode
    exact ⟨convention, groups, instrs, code, h⟩
  · rintro ⟨convention, groups, instrs, code, h⟩
    obtain ⟨r, hr, -⟩ := hok convention groups instrs code h
    exact ⟨r, hr⟩
  · intro convention' groups' instrs' code' h'
    obtain ⟨rfl, rfl, rfl⟩ := hasFormat_unique hm h.format h'.format
    have hlower := Scope.lowerAll_ok_iff.mpr h.effects
    rw [Scope.lowerAll_ok_iff.mpr h'.effects] at hlower
    exact ⟨rfl, rfl, rfl, (Except.ok.inj hlower).symm⟩
  · obtain ⟨r, hr, hof, hc, ha, hb⟩ := hok convention groups instrs code h
    exact ⟨r, hr, hof, hc, ha, hb, by rw [hb]; rfl⟩

/-- A routine with one local that returns 7, after a `nop` that is skipped if the local is zero. -/
def skipping : Memory := { bytes := #[0xC1, 4, 1, 0, 0, 0x22, 0x19, 0, 3, 0, 0x31, 1, 7] }

theorem decode_iff_parse_skipping : skipping.size ≤ 0x80000000 ∧
    ∃ groups instrs code, Parse skipping 0 0 .localArguments groups instrs code ∧
      (decode skipping 0 0).map (·.body) =
        .ok (Body.normalize (code.labelled UInt32.toNat) (LocalGroup.declared groups)) := by
  have hm : skipping.size ≤ 0x80000000 := by decide
  have hkind : (decode skipping 0 0).map (·.convention) = .ok .localArguments := by
    decide +kernel
  obtain ⟨hiff, hparse⟩ := decode_iff_parse skipping hm 0 0
  obtain ⟨r₀, hr₀, -⟩ := map_ok_iff.mp hkind
  obtain ⟨convention, groups, instrs, code, h⟩ := hiff.mp ⟨r₀, hr₀⟩
  obtain ⟨-, r, hr, -, rfl, -, hbody, -⟩ := hparse convention groups instrs code h
  rw [hr] at hkind
  have hlocal : r.convention = .localArguments := Except.ok.inj hkind
  rw [hlocal] at h
  exact ⟨hm, groups, instrs, code, h, by rw [hr, ← hbody]; rfl⟩

end Routine

end StoryVM
