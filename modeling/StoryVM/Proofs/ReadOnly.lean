import StoryVM.Proofs.Requests
import StoryVM.Story

/-! # Read-only memory

Bytes in a protected region never change: a write that would touch one fails, whatever its width,
and nothing takes the protection away. A story protects everything below the start of writable
memory when it is loaded, so that part of it stays what it was (`rom_immutable`).

* `Memory.Grows`: how memory may change. It becomes no smaller, regions are only added, and
  protected bytes stay.
* `Memory.Written`: how a run may change it. Size and regions stay, too.
* `Machine.upheld_written`, `Request.Does.grows`: runs and requests change memory only like that.
* `Story.Leads`: all that can be done with a loaded story. -/

namespace StoryVM

/-! ## Memory -/

namespace Memory

/-- A position lies in a protected region. -/
def Protected (m : Memory) (i : Nat) : Prop :=
  ∃ r ∈ m.regions, r.start.toNat ≤ i ∧ i < r.start.toNat + r.length.toNat

/-- **How memory may change.** -/
structure Grows (m m' : Memory) : Prop where
  size : m.size ≤ m'.size
  regions : m.regions <+: m'.regions
  bytes : ∀ i < m.size, m.Protected i → m'.bytes[i]? = m.bytes[i]?

/-- **How a run may change memory.** -/
structure Written (m m' : Memory) : Prop where
  size : m'.size = m.size
  regions : m'.regions = m.regions
  bytes : ∀ i, m.Protected i → m'.bytes[i]? = m.bytes[i]?

variable {m m₁ m₂ : Memory}

theorem Protected.mono {i : Nat} (h : m.Protected i) (hr : m.regions <+: m₁.regions) :
    m₁.Protected i := by
  obtain ⟨r, hmem, hi⟩ := h
  exact ⟨r, hr.subset hmem, hi⟩

theorem Grows.refl (m : Memory) : m.Grows m := ⟨Nat.le_refl _, List.prefix_refl _, fun _ _ _ => rfl⟩

theorem Grows.trans (h : m.Grows m₁) (h' : m₁.Grows m₂) : m.Grows m₂ where
  size := Nat.le_trans h.size h'.size
  regions := h.regions.trans h'.regions
  bytes i hi hp := by
    have hlt : i < m₁.size := Nat.lt_of_lt_of_le hi h.size
    exact (h'.bytes i hlt (hp.mono h.regions)).trans (h.bytes i hi hp)

theorem Written.refl (m : Memory) : m.Written m := ⟨rfl, rfl, fun _ _ => rfl⟩

theorem Written.trans (h : m.Written m₁) (h' : m₁.Written m₂) : m.Written m₂ where
  size := h'.size.trans h.size
  regions := h'.regions.trans h.regions
  bytes i hp := by
    have hp₁ : m₁.Protected i := hp.mono (h.regions ▸ List.prefix_refl _)
    exact (h'.bytes i hp₁).trans (h.bytes i hp)

theorem Written.grows (h : m.Written m₁) : m.Grows m₁ where
  size := Nat.le_of_eq h.size.symm
  regions := h.regions ▸ List.prefix_refl _
  bytes i _ hp := h.bytes i hp

/-- **A write touches no protected byte**: a region with a byte in the way would have refused it. -/
theorem written_write {w : Width} {address v : UInt32} (h : m.write w address v = .ok m₁) :
    m.Written m₁ := by
  have hsize := size_write h
  unfold write at h
  split at h
  · next hrange =>
    split at h
    · cases h
    · next hfree =>
      obtain rfl := Except.ok.inj h
      refine ⟨hsize, rfl, fun i hp => ?_⟩
      obtain ⟨r, hmem, hstart, hend⟩ := hp
      have hmeets := List.find?_eq_none.mp hfree r hmem
      have hroom : address.toNat + (Bytes.encode w v).length ≤ m.bytes.size := by
        rw [Bytes.length_encode]
        exact of_decide_eq_true hrange
      simp only [Region.meets, Bool.and_eq_true, decide_eq_true_eq, not_and, Nat.not_lt] at hmeets
      rw [Bytes.getElem?_splice _ _ _ _ hroom, if_neg]
      rw [Bytes.length_encode]
      omega
  · cases h

theorem expand_ok {n : UInt32} (h : m.expand n = .ok m₁) :
    m.Grows m₁ ∧ m₁.regions = m.regions ∧ m₁.size = n.toNat := by
  unfold expand at h
  split at h
  · cases h
  · next hle =>
    obtain rfl := Except.ok.inj h
    have hsize : (m.bytes ++ Array.replicate (n.toNat - m.size) 0).size = n.toNat := by
      rw [Array.size_append, Array.size_replicate]
      unfold size at hle ⊢
      omega
    refine ⟨⟨?_, List.prefix_refl _, fun i hi _ => Array.getElem?_append_left hi⟩, rfl, hsize⟩
    exact Nat.le_trans (Nat.not_lt.mp hle) (Nat.le_of_eq hsize.symm)

theorem Change.grows (h : m.Change m₁) : m.Grows m₁ := by
  cases h with
  | write h => exact (written_write h).grows
  | expand h => exact (expand_ok h).1
  | protect r => exact ⟨Nat.le_refl _, List.prefix_append _ _, fun _ _ _ => rfl⟩

end Memory

/-! ## Runs and requests -/

variable {σ : Type}

theorem Machine.After.written {op : Op} {m m' : Machine σ} (h : m.After op m') :
    m.memory.Written m'.memory := by
  cases h with
  | change h =>
    cases h with
    | memory h => exact Memory.written_write h
    | host host => exact .refl _
    | stack hs host => exact .refl _
    | frame hf hw => exact .refl _
  | count l =>
    unfold Machine.countStep
    dsimp only
    split
    · exact .refl _
    · split <;> exact .refl _
  | halt =>
    unfold Machine.halt
    split <;> exact .refl _

theorem Machine.memory_routineAt (m : Machine σ) (address : UInt32) :
    (m.routineAt address).2.memory = m.memory := by
  obtain ⟨routines, trace, hat⟩ := m.routineAt_changes address
  rw [hat]

theorem Machine.memory_enter (m : Machine σ) (address : UInt32) (args : List UInt32) :
    (m.enter address args).2.memory = m.memory := by
  rcases henter : m.enter address args with ⟨f | r, m'⟩
  · obtain ⟨routines, stack, trace, rfl, -⟩ := Machine.enter_error henter
    rfl
  · obtain ⟨-, routines, stack, f, trace, rfl⟩ := Machine.enter_ok henter
    rfl

theorem Machine.memory_leave (m : Machine σ) : m.leave.2.memory = m.memory := by
  obtain ⟨frames, stack, hleave⟩ := m.leave_changes
  rw [hleave]

/-- **Runs change memory by writing to it only.** -/
theorem Machine.upheld_written :
    Machine.Upheld fun m m' : Machine σ => m.memory.Written m'.memory where
  refl m := .refl m.memory
  trans h h' := h.trans h'
  after h := h.written
  enter m address args := by
    rw [m.memory_enter]
    exact .refl _
  leave m := by
    rw [m.memory_leave]
    exact .refl _
  record m e := .refl m.memory

variable [Host σ]

/-- **No request changes a protected byte**, and those that run a program leave the size and the
regions alone. -/
theorem Request.Does.grows {m m' : Machine σ} {request : Request σ}
    (h : Request.Does m request m') :
    m.memory.Grows m'.memory ∧ (request.isRun = true →
      m'.memory.size = m.memory.size ∧ m'.memory.regions = m.memory.regions) := by
  have hrun : ∀ {m'' : Machine σ}, m.memory.Written m''.memory → m.memory.Grows m''.memory ∧
      (request.isRun = true →
        m''.memory.size = m.memory.size ∧ m''.memory.regions = m.memory.regions) :=
    fun hw => ⟨hw.grows, fun _ => ⟨hw.size, hw.regions⟩⟩
  cases h with
  | call hcall => exact hrun (Machine.upheld_written.call hcall)
  | evaluate heval => exact hrun (Machine.upheld_written.evaluate heval)
  | routine address =>
    refine hrun ?_
    rw [m.memory_routineAt]
    exact .refl _
  | memory hr hm =>
    refine ⟨hm.grows, fun hrun => ?_⟩
    rw [hr] at hrun
    cases hrun
  | rest hr stack host => exact hrun (.refl _)
  | halt => exact hrun (Machine.After.written .halt)

/-! ## Stories -/

namespace Story

omit [Host σ] in
/-- **Loading a story** reads one routine on a machine that has not read any. -/
theorem load_reads {image : Array UInt8} {host : σ} {limits : Limits} {s : Story σ}
    (h : load image host limits = .ok s) :
    ∃ m : Machine σ, layOut image = .ok (s.header, m.memory) ∧ m.ramStart = s.header.ramStart ∧
      m.routines = ∅ ∧ m.routineAt s.header.startFunc = (.ok s.start, s.machine) := by
  unfold load at h
  split at h
  · cases h
  · next header memory hlayOut =>
    dsimp only at h
    split at h
    · cases h
    · next r m hread =>
      cases h
      exact ⟨_, hlayOut, rfl, rfl, hread⟩

omit [Host σ] in
/-- **A loaded story** protects what lies below the start of writable memory. -/
theorem load_ok {image : Array UInt8} {host : σ} {limits : Limits} {s : Story σ}
    (h : load image host limits = .ok s) :
    s.machine.memory.regions = [⟨0, s.header.ramStart⟩] ∧
      s.machine.ramStart = s.header.ramStart ∧ s.machine.memory.size = s.header.endMem.toNat := by
  have hlayOut : Yields (layOut image) fun q =>
      q.2.regions = [⟨0, q.1.ramStart⟩] ∧ q.2.size = q.1.endMem.toNat := by
    refine .bind (.any _) fun header _ => ?_
    dsimp only
    split
    · exact .error _
    split
    · exact .error _
    split
    · exact .error _
    split
    · exact .error _
    · next memory hexpand =>
      obtain ⟨-, hregions, hsize⟩ := Memory.expand_ok hexpand
      refine .pure ⟨?_, hsize⟩
      simp only [Memory.protect, hregions, List.nil_append]
  obtain ⟨m, hmemory, hramStart, -, hread⟩ := load_reads h
  obtain ⟨hregions, hsize⟩ := hlayOut _ hmemory
  obtain ⟨routines, trace, hat⟩ := m.routineAt_changes s.header.startFunc
  rw [hread] at hat
  dsimp only at hat
  rw [hat]
  exact ⟨hregions, hramStart, hsize⟩

omit [Host σ] in
theorem rom_protected {image : Array UInt8} {host : σ} {limits : Limits} {s : Story σ}
    (h : load image host limits = .ok s) {i : Nat} (hi : i < s.header.ramStart.toNat) :
    s.machine.memory.Protected i := by
  obtain ⟨hregions, -, -⟩ := load_ok h
  refine ⟨⟨0, s.header.ramStart⟩, ?_, Nat.zero_le i, ?_⟩
  · rw [hregions]
    exact List.mem_singleton_self _
  · show i < 0 + s.header.ramStart.toNat
    omega

omit [Host σ] in
/-- What a story is like is seen when it is loaded. -/
theorem exists_loaded (image : Array UInt8) (host : σ) (limits : Limits) (P : Story σ → Prop)
    [∀ s, Decidable (P s)]
    (h : (match load image host limits with
      | .error _ => false
      | .ok s => decide (P s)) = true) : ∃ s, load image host limits = .ok s ∧ P s := by
  cases hload : load image host limits with
  | error f =>
    rw [hload] at h
    cases h
  | ok s =>
    rw [hload] at h
    exact ⟨s, rfl, of_decide_eq_true h⟩

/-- **What can be done with a loaded story**, in any order: run it, and make requests of its
machine. -/
inductive Leads (s : Story σ) : Story σ → Prop
  | start : Leads s s
  | run {s₁ s₂ : Story σ} {fuel : Nat} {result : Except Fault UInt32} (h : Leads s s₁)
    (hrun : s₁.run fuel = some (result, s₂)) : Leads s s₂
  | request {s₁ : Story σ} {fuel : Nat} {request : Request σ} {answer : Except Fault Answer}
    {m : Machine σ} (h : Leads s s₁) (hm : s₁.machine.perform fuel request = some (answer, m)) :
    Leads s { s₁ with machine := m }

/-- Running a story is a request of its machine. -/
theorem run_does {s s' : Story σ} {fuel : Nat} {result : Except Fault UInt32}
    (h : s.run fuel = some (result, s')) :
    Request.Does s.machine (.call s.header.startFunc []) s'.machine := by
  obtain ⟨⟨result₁, m⟩, hcall, he⟩ := Option.map_eq_some_iff.mp h
  cases he
  exact .call hcall

theorem Leads.grows {s s' : Story σ} (h : s.Leads s') :
    s.machine.memory.Grows s'.machine.memory := by
  induction h with
  | start => exact .refl _
  | run _ hrun ih => exact ih.trans (run_does hrun).grows.1
  | request _ hm ih => exact ih.trans (Machine.perform_does hm).grows.1

end Story

/-- **Read-only memory stays what it was.** Whatever is done with a loaded story, each byte below
the start of writable memory that was there when it was loaded keeps its value, and regions are only
added to those that are protected. Running a program, as a whole or by a call or an evaluation,
changes neither the size of memory nor its regions. -/
theorem rom_immutable {image : Array UInt8} {host : σ} {limits : Limits} {s : Story σ}
    (hload : Story.load image host limits = .ok s) {s₁ : Story σ} (h₁ : s.Leads s₁) :
    (∀ i < s.header.ramStart.toNat, i < s.machine.memory.size →
      s₁.machine.memory.bytes[i]? = s.machine.memory.bytes[i]?) ∧
    (∀ s₂, s₁.Leads s₂ → s₁.machine.memory.regions <+: s₂.machine.memory.regions) ∧
    (∀ fuel result s₂, s₁.run fuel = some (result, s₂) →
      s₂.machine.memory.size = s₁.machine.memory.size ∧
        s₂.machine.memory.regions = s₁.machine.memory.regions) ∧
    ∀ fuel request answer m, s₁.machine.perform fuel request = some (answer, m) →
      request.isRun = true → m.memory.size = s₁.machine.memory.size ∧
        m.memory.regions = s₁.machine.memory.regions := by
  refine ⟨fun i hi hsize => ?_, fun s₂ h₂ => h₂.grows.regions,
    fun fuel result s₂ hrun => (Story.run_does hrun).grows.2 rfl,
    fun fuel request answer m hm hr => (Machine.perform_does hm).grows.2 hr⟩
  exact h₁.grows.bytes i hsize (Story.rom_protected hload hi)

/-- A story with two routines and no room on its value stack. The routine that it starts with lies
below the start of writable memory and writes to the first byte of the other, which lies above. -/
def touching : Array UInt8 :=
  #[0x47, 0x6C, 0x75, 0x6C, 0x00, 0x03, 0x01, 0x02, 0x00, 0x00, 0x00, 0x30, 0x00, 0x00, 0x00, 0x34,
    0x00, 0x00, 0x00, 0x38, 0x00, 0x00, 0x00, 0x00, 0x00, 0x00, 0x00, 0x24, 0x00, 0x00, 0x00, 0x00,
    0x19, 0xF7, 0xA8, 0x20, 0xC1, 0x00, 0x00, 0x42, 0x51, 0x09, 0x30, 0x31, 0x00, 0x7F, 0x00, 0x00,
    0xC0, 0x00, 0x00, 0x7F]

theorem rom_immutable_touching :
    ∃ s s₁ : Story Silent, Story.load touching {} {} = .ok s ∧ s.run 10 = some (.ok 0, s₁) ∧
      s₁.machine.memory.bytes[0x30]? = some 9 ∧
      ∀ i < 0x30, s₁.machine.memory.bytes[i]? = s.machine.memory.bytes[i]? := by
  obtain ⟨s, hload, hramStart, hsize, hrun⟩ := Story.exists_loaded touching ({} : Silent) {}
    (fun s => s.header.ramStart = 0x30 ∧ s.machine.memory.size = 0x38 ∧
      (s.run 10).map (fun q => (q.1, q.2.machine.memory.bytes[0x30]?)) = some (.ok 0, some 9))
    (by decide +kernel)
  obtain ⟨⟨result, s₁⟩, hs₁, hq⟩ := Option.map_eq_some_iff.mp hrun
  obtain ⟨rfl, hbyte⟩ := Prod.mk.inj hq
  refine ⟨s, s₁, hload, hs₁, hbyte, fun i hi => ?_⟩
  refine (rom_immutable hload (.run .start hs₁)).1 i ?_ ?_
  · rw [hramStart]
    exact hi
  · rw [hsize]
    omega

end StoryVM
