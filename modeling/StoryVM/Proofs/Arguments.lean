import StoryVM.Proofs.ByteStack
import StoryVM.Proofs.TwinCalls

/-! # Passing arguments

A routine is entered with all of its arguments or not at all. It is refused if calls are nested too
deeply, then if it cannot be read, and then if it wants its arguments on the value stack and they do
not fit there with their number; the arguments that have been pushed by then are dropped again.
Otherwise the routine finds its arguments on the value stack, their number on top and the first of
them next, or in its first locals, narrowed to their widths. All other locals are zero.

* `Stack.pushDwords_of_le`, `Stack.pushDwords_of_lt`, `Stack.popDwords_of_content`: dwords that are
  pushed and popped, in terms of the content of the stack.
* `Frame.read_passArguments`: locals that hold arguments.
* `Machine.Refuses`: why a routine is not entered, each reason under the condition that those before
  it do not apply.
* `Machine.Declined`, `Machine.Accepted`: the machine afterwards.
* `Machine.enter_passes`: entering a routine comes to one or the other. -/

namespace StoryVM

/-! ## Dwords on the value stack -/

namespace Stack

/-- The bytes of dwords, one after the other. -/
def dwordBytes (vs : List UInt32) : List UInt8 := vs.flatMap (Bytes.encode .dword)

/-- **Dwords that fit** are pushed in their order. -/
theorem pushDwords_of_le {s : Stack} {vs : List UInt32}
    (h : s.pointer + 4 * vs.length ≤ s.capacity) :
    ∃ s', s.pushDwords vs = (.ok (), s') ∧ s'.content = s.content ++ dwordBytes vs := by
  induction vs generalizing s with
  | nil => exact ⟨s, rfl, (List.append_nil _).symm⟩
  | cons v vs ih =>
    rw [List.length_cons] at h
    have hdword : Width.dword.bytes = 4 := rfl
    obtain ⟨s₁, hpush, hcontent₁, hpointer₁, hcapacity₁⟩ :=
      push_of_le (s := s) (w := .dword) v (by omega)
    obtain ⟨s₂, hrest, hcontent₂⟩ := ih (s := s₁) (by omega)
    refine ⟨s₂, by rw [pushDwords, hpush]; exact hrest, ?_⟩
    rw [hcontent₂, hcontent₁, List.append_assoc]
    rfl

/-- **Dwords that do not all fit**: those that do are pushed, and the fault reports the pointer that
the first of the others has met. -/
theorem pushDwords_of_lt {s : Stack} {vs : List UInt32}
    (h : s.capacity < s.pointer + 4 * vs.length) :
    ∃ s' pushed, s.pushDwords vs = (.error (.stackOverflow
        (s.pointer + 4 * ((s.capacity - s.pointer) / 4)) 4 s.capacity), s') ∧
      s'.content = s.content ++ pushed := by
  induction vs generalizing s with
  | nil =>
    have hle : s.pointer ≤ s.capacity := s.pointer_le
    exact absurd h (Nat.not_lt.mpr (by simpa using hle))
  | cons v vs ih =>
    rw [List.length_cons] at h
    have hdword : Width.dword.bytes = 4 := rfl
    by_cases hroom : s.pointer + Width.dword.bytes ≤ s.capacity
    · obtain ⟨s₁, hpush, hcontent₁, hpointer₁, hcapacity₁⟩ := push_of_le v hroom
      obtain ⟨s₂, pushed, hrest, hcontent₂⟩ := ih (s := s₁) (by omega)
      have hmet : s₁.pointer + 4 * ((s₁.capacity - s₁.pointer) / 4) =
          s.pointer + 4 * ((s.capacity - s.pointer) / 4) := by
        omega
      rw [hmet, hcapacity₁] at hrest
      refine ⟨s₂, Bytes.encode .dword v ++ pushed, by rw [pushDwords, hpush]; exact hrest, ?_⟩
      rw [hcontent₂, hcontent₁, List.append_assoc]
    · have hmet : s.pointer + 4 * ((s.capacity - s.pointer) / 4) = s.pointer := by
        have hle : s.pointer ≤ s.capacity := s.pointer_le
        omega
      refine ⟨s, [], ?_, (List.append_nil _).symm⟩
      rw [pushDwords, push_of_lt v (Nat.not_le.mp hroom), hmet, hdword]

/-- **Dwords are popped in the reverse order.** -/
theorem popDwords_of_content {s : Stack} {bs : List UInt8} {vs : List UInt32}
    (h : s.content = bs ++ dwordBytes vs.reverse) :
    ∃ s', s.popDwords vs.length = .ok (vs, s') ∧ s'.content = bs := by
  induction vs generalizing s with
  | nil => exact ⟨s, rfl, by rw [h]; exact List.append_nil _⟩
  | cons v vs ih =>
    have hlast : s.content = (bs ++ dwordBytes vs.reverse) ++ Bytes.encode .dword v := by
      rw [h, List.append_assoc]
      simp [dwordBytes]
    obtain ⟨s₁, hpop, hcontent₁⟩ := pop_of_content hlast (Bytes.length_encode .dword v)
    obtain ⟨s₂, hrest, hcontent₂⟩ := ih hcontent₁
    refine ⟨s₂, ?_, hcontent₂⟩
    rw [Bytes.decode_encode] at hpop
    simp only [popDwords, hpop, hrest, List.length_cons, Bind.bind, Except.bind]
    rfl

/-- What was pushed since can be dropped by setting the pointer back. -/
theorem restore_of_content {s : Stack} {bs more : List UInt8} (h : s.content = bs ++ more) :
    ∃ s', s.restore bs.length = .ok s' ∧ s'.content = bs ∧ s'.capacity = s.capacity := by
  have hpointer : s.pointer = bs.length + more.length := by
    rw [← s.length_content, h, List.length_append]
  have hle : bs.length ≤ s.capacity := by
    have : s.pointer ≤ s.capacity := s.pointer_le
    omega
  obtain ⟨hrest, -⟩ := (window_of_content h rfl).symm
  unfold restore
  rw [dif_pos hle]
  refine ⟨_, rfl, ?_, rfl⟩
  rw [hpointer, Nat.add_sub_cancel] at hrest
  rw [content_eq]
  exact hrest

end Stack

/-! ## Locals -/

namespace Frame

theorem getElem?_fill (slots : List Slot) (args : List UInt32) (i : Nat) :
    (fill slots args)[i]? =
      slots[i]?.map fun slot => args[i]?.elim slot (Slot.holding slot.width) := by
  induction slots generalizing args i with
  | nil => cases args <;> rfl
  | cons slot slots ih =>
    cases args with
    | nil => simp [fill]
    | cons v args =>
      cases i with
      | zero => rfl
      | succ i => simpa [fill] using ih args i

variable {locals : List Local} {base i : Nat} {l : Local}

theorem size_make (locals : List Local) (base : Nat) : (make locals base).size = locals.length := by
  simp [size, make]

theorem size_passArguments (locals : List Local) (base : Nat) (args : List UInt32) :
    ((make locals base).passArguments args).size = locals.length := by
  have hwidths := congrArg List.length (map_width_fill (make locals base).slots.toList args)
  simp only [List.length_map] at hwidths
  rw [← size_make locals base, size, passArguments, List.size_toArray, hwidths]
  rfl

theorem read_make (h : locals[i]? = some l) : (make locals base).read i = .ok 0 := by
  have hzero : l.width.truncate 0 = 0 := by cases l.width <;> rfl
  simp [read, make, h, Slot.holding, hzero]

/-- **A local holds the argument at its place**, narrowed to its width, or zero if there is none. -/
theorem read_passArguments (h : locals[i]? = some l) (args : List UInt32) :
    ((make locals base).passArguments args).read i =
      .ok (args[i]?.elim 0 l.width.truncate) := by
  have hzero : l.width.truncate 0 = 0 := by cases l.width <;> rfl
  have hslot : (make locals base).slots.toList[i]? = some (.holding l.width 0) := by
    simp [make, h]
  rw [read, passArguments, List.getElem?_toArray, getElem?_fill, hslot]
  cases args[i]? <;> simp [Slot.holding, hzero]

end Frame

/-! ## Entering a routine -/

namespace Machine

variable {σ : Type}

/-- **The routine at an address**: the one read before, or the one that memory holds. -/
def routineFor (m : Machine σ) (address : UInt32) : Except Fault Routine :=
  match m.routines[address]? with
  | some r => .ok r
  | none => Routine.decode m.memory address m.ramStart

/-- **Why a routine is not entered** with a number of arguments. The reasons exclude each other: one
applies if those before it do not. -/
inductive Refuses (m : Machine σ) (address : UInt32) (count : Nat) : Fault → Prop
  | depth (hdepth : m.limits.maxDepth ≤ m.depth) :
    m.Refuses address count (.callDepthExceeded m.limits.maxDepth)
  | unread {f : Fault} (hdepth : m.depth < m.limits.maxDepth) (hr : m.routines[address]? = none)
    (hf : Routine.decode m.memory address m.ramStart = .error f) :
    m.Refuses address count f
  | room {r : Routine} (hdepth : m.depth < m.limits.maxDepth) (hr : m.routineFor address = .ok r)
    (hconvention : r.convention = .stackArguments)
    (hroom : m.stack.capacity < m.stack.pointer + 4 * (count + 1)) :
    m.Refuses address count (.stackOverflow
      (m.stack.pointer + 4 * ((m.stack.capacity - m.stack.pointer) / 4)) 4 m.stack.capacity)

/-- The routines read so far, after the one at an address was asked for: a new one is added if it
could be read from memory. -/
def Adds (m : Machine σ) (address : UInt32) (routines : Std.TreeMap UInt32 Routine) : Prop :=
  routines = m.routines ∨ m.routines[address]? = none ∧
    ∃ r, Routine.decode m.memory address m.ramStart = .ok r ∧
      routines = m.routines.insert address r

/-- **What entering a routine leaves alone**, whether it is refused or not: everything but the
frames, the value stack and the events. Nothing but a routine read from memory is added to those
read so far. -/
structure Spares (m : Machine σ) (address : UInt32) (m' : Machine σ) : Prop where
  memory : m'.memory = m.memory
  ramStart : m'.ramStart = m.ramStart
  host : m'.host = m.host
  limits : m'.limits = m.limits
  steps : m'.steps = m.steps
  halted : m'.halted = m.halted
  capacity : m'.stack.capacity = m.stack.capacity
  routines : m.Adds address m'.routines

/-- **A machine on which a routine was not entered.** -/
structure Declined (m : Machine σ) (address : UInt32) (m' : Machine σ) : Prop
    extends Spares m address m' where
  frames : m'.frames = m.frames
  pointer : m'.stack.pointer = m.stack.pointer
  content : m'.stack.content = m.stack.content

/-- **A machine on which a routine was entered with arguments.** -/
structure Accepted (m : Machine σ) (address : UInt32) (args : List UInt32) (r : Routine)
    (m' : Machine σ) : Prop extends Spares m address m' where
  routine : m.routineFor address = .ok r
  frame : ∃ f, m'.frames = m.frames.push f ∧ f.base = m.stack.pointer ∧
    f.size = r.body.locals.length ∧
    ∀ i l, r.body.locals[i]? = some l → f.read i = .ok
      (match r.convention with
      | .stackArguments => 0
      | .localArguments => args[i]?.elim 0 l.width.truncate)
  stack :
    match r.convention with
    | .stackArguments => ∃ count s, count.toNat = args.length ∧
      m'.stack.popDwords (args.length + 1) = .ok (count :: args, s) ∧
      s.pointer = m.stack.pointer ∧ s.content = m.stack.content
    | .localArguments => m'.stack = m.stack

variable {m : Machine σ} {address : UInt32} {args : List UInt32} {r : Routine}

theorem routineFor_error_iff {f : Fault} : m.routineFor address = .error f ↔
    m.routines[address]? = none ∧ Routine.decode m.memory address m.ramStart = .error f := by
  unfold routineFor
  cases m.routines[address]? <;> simp

/-- If there is a routine and room for its frame, then only its arguments can be in the way. -/
theorem Refuses.of_routine {count : Nat} {f : Fault} (h : m.Refuses address count f)
    (hdepth : m.depth < m.limits.maxDepth) (hr : m.routineFor address = .ok r) :
    r.convention = .stackArguments ∧
      m.stack.capacity < m.stack.pointer + 4 * (count + 1) := by
  cases h with
  | depth hmore => omega
  | unread _ hnew hf =>
    rw [routineFor_error_iff.mpr ⟨hnew, hf⟩] at hr
    cases hr
  | room _ hr' hconvention hroom =>
    obtain rfl := Except.ok.inj (hr.symm.trans hr')
    exact ⟨hconvention, hroom⟩

theorem Refuses.unique {count : Nat} {f f' : Fault} (h : m.Refuses address count f)
    (h' : m.Refuses address count f') : f = f' := by
  cases h with
  | depth hdepth =>
    cases h' with
    | depth => rfl
    | unread hless => omega
    | room hless => omega
  | unread hdepth hnew hf =>
    cases h' with
    | depth hmore => omega
    | unread _ _ hf' => exact Except.error.inj (hf.symm.trans hf')
    | room _ hr' =>
      rw [routineFor_error_iff.mpr ⟨hnew, hf⟩] at hr'
      cases hr'
  | room hdepth hr =>
    cases h' with
    | depth hmore => omega
    | unread _ hnew hf =>
      rw [routineFor_error_iff.mpr ⟨hnew, hf⟩] at hr
      cases hr
    | room => rfl

theorem routineAt_eq (m : Machine σ) (address : UInt32) :
    ∃ routines trace,
      m.routineAt address =
        (m.routineFor address, { m with routines := routines, trace := trace }) ∧
      m.Adds address routines := by
  unfold routineAt routineFor Adds
  rw [Std.TreeMap.get?_eq_getElem?]
  cases hget : m.routines[address]? with
  | some r => exact ⟨m.routines, m.trace, rfl, .inl rfl⟩
  | none =>
    cases hdecode : Routine.decode m.memory address m.ramStart with
    | error f => exact ⟨m.routines, m.trace, rfl, .inl rfl⟩
    | ok r => exact ⟨_, _, rfl, .inr ⟨rfl, r, rfl, rfl⟩⟩

/-- Entering a routine is finding it and then passing the arguments to it. -/
theorem enter_eq (m : Machine σ) (address : UInt32) (args : List UInt32) :
    m.enter address args =
      if m.limits.maxDepth ≤ m.depth then
        (.error (.callDepthExceeded m.limits.maxDepth),
          m.record (.depthLimit m.limits.maxDepth address))
      else
        match m.routineAt address with
        | (.error f, m) => (.error f, m)
        | (.ok r, m) => m.pass address args r := rfl

/-- **Arguments in locals** are always passed. -/
theorem pass_locals (h : r.convention = .localArguments) :
    m.pass address args r = (.ok r, m.pushFrame address args.length
      ((Frame.make r.body.locals m.stack.pointer).passArguments args)) := by
  rw [pass, h]

/-- **Arguments that fit on the value stack** are pushed, the last of them first and their number
last. -/
theorem pass_stack_of_le (m : Machine σ) (address : UInt32) (h : r.convention = .stackArguments)
    (hroom : m.stack.pointer + 4 * (args.length + 1) ≤ m.stack.capacity) :
    ∃ stack, m.pass address args r = (.ok r, { m with stack := stack }.pushFrame address
        args.length (Frame.make r.body.locals m.stack.pointer)) ∧
      stack.capacity = m.stack.capacity ∧ stack.content = m.stack.content ++
        Stack.dwordBytes (UInt32.ofNat args.length :: args).reverse := by
  have hfits : m.stack.pointer + 4 * (args.reverse ++ [UInt32.ofNat args.length]).length ≤
      m.stack.capacity := by
    rwa [List.length_append, List.length_reverse, List.length_singleton]
  obtain ⟨stack, hpush, hcontent⟩ := Stack.pushDwords_of_le hfits
  have hcapacity := m.stack.capacity_pushDwords (args.reverse ++ [UInt32.ofNat args.length])
  rw [hpush] at hcapacity
  refine ⟨stack, ?_, hcapacity, by rw [hcontent, List.reverse_cons]⟩
  rw [pass, h]
  dsimp only
  rw [hpush]

/-- **Arguments that do not fit on the value stack** leave nothing there. -/
theorem pass_stack_of_lt (m : Machine σ) (address : UInt32) (h : r.convention = .stackArguments)
    (hroom : m.stack.capacity < m.stack.pointer + 4 * (args.length + 1)) :
    ∃ stack, m.pass address args r =
        (.error (.stackOverflow
          (m.stack.pointer + 4 * ((m.stack.capacity - m.stack.pointer) / 4)) 4 m.stack.capacity),
        { m with stack := stack }) ∧
      stack.capacity = m.stack.capacity ∧ stack.content = m.stack.content := by
  have hfull : m.stack.capacity <
      m.stack.pointer + 4 * (args.reverse ++ [UInt32.ofNat args.length]).length := by
    rwa [List.length_append, List.length_reverse, List.length_singleton]
  obtain ⟨pushed, more, hpush, hcontent⟩ := Stack.pushDwords_of_lt hfull
  have hcapacity := m.stack.capacity_pushDwords (args.reverse ++ [UInt32.ofNat args.length])
  rw [hpush] at hcapacity
  obtain ⟨stack, hrestore, hcontent', hcapacity'⟩ := Stack.restore_of_content hcontent
  rw [Stack.length_content] at hrestore
  refine ⟨stack, ?_, hcapacity'.trans hcapacity, hcontent'⟩
  rw [pass, h]
  dsimp only
  rw [hpush]
  dsimp only
  rw [hrestore]

/-- **A refusal for lack of room** leaves the machine as it was, up to the routine that was read. -/
theorem declined_of_content {routines : Std.TreeMap UInt32 Routine} {trace : Array Event}
    {stack : Stack} (hroutines : m.Adds address routines)
    (hcapacity : stack.capacity = m.stack.capacity) (hcontent : stack.content = m.stack.content) :
    m.Declined address { m with routines := routines, trace := trace, stack := stack } where
  memory := rfl
  ramStart := rfl
  host := rfl
  limits := rfl
  steps := rfl
  halted := rfl
  capacity := hcapacity
  routines := hroutines
  frames := rfl
  pointer := by rw [← Stack.length_content, hcontent, Stack.length_content]
  content := hcontent

/-- **A routine that wants its arguments in locals** finds them there. -/
theorem accepted_locals {routines : Std.TreeMap UInt32 Routine} {trace : Array Event}
    (hroutines : m.Adds address routines) (hr : m.routineFor address = .ok r)
    (h : r.convention = .localArguments) :
    m.Accepted address args r
      (({ m with routines := routines, trace := trace } : Machine σ).pushFrame address args.length
        ((Frame.make r.body.locals m.stack.pointer).passArguments args)) where
  memory := rfl
  ramStart := rfl
  host := rfl
  limits := rfl
  steps := rfl
  halted := rfl
  capacity := rfl
  routines := hroutines
  routine := hr
  frame := by
    rw [h]
    exact ⟨_, rfl, rfl, Frame.size_passArguments _ _ _, fun i l hl =>
      Frame.read_passArguments hl args⟩
  stack := by
    rw [h]
    rfl

/-- **A routine that wants its arguments on the value stack** finds them there. -/
theorem accepted_stack {routines : Std.TreeMap UInt32 Routine} {trace : Array Event} {stack : Stack}
    (hargs : args.length < 0x100000000) (hroutines : m.Adds address routines)
    (hr : m.routineFor address = .ok r) (h : r.convention = .stackArguments)
    (hcapacity : stack.capacity = m.stack.capacity)
    (hcontent : stack.content = m.stack.content ++
      Stack.dwordBytes (UInt32.ofNat args.length :: args).reverse) :
    m.Accepted address args r
      (({ m with routines := routines, trace := trace, stack := stack } : Machine σ).pushFrame
        address args.length (Frame.make r.body.locals m.stack.pointer)) where
  memory := rfl
  ramStart := rfl
  host := rfl
  limits := rfl
  steps := rfl
  halted := rfl
  capacity := hcapacity
  routines := hroutines
  routine := hr
  frame := by
    rw [h]
    exact ⟨_, rfl, rfl, Frame.size_make _ _, fun i l hl => Frame.read_make hl⟩
  stack := by
    rw [h]
    obtain ⟨s, hpop, hbelow⟩ := Stack.popDwords_of_content hcontent
    have hpointer : s.pointer = m.stack.pointer := by
      rw [← Stack.length_content, hbelow, Stack.length_content]
    exact ⟨_, s, UInt32.toNat_ofNat_of_lt' hargs, hpop, hpointer, hbelow⟩

/-- **A routine is entered with its arguments, or refused.** -/
theorem enter_cases (m : Machine σ) (address : UInt32) {args : List UInt32}
    (hargs : args.length < 0x100000000) :
    (∃ f m', m.enter address args = (.error f, m') ∧ m.Refuses address args.length f ∧
      m.Declined address m') ∨
    ∃ r m', m.enter address args = (.ok r, m') ∧ (∀ f, ¬ m.Refuses address args.length f) ∧
      m.Accepted address args r m' := by
  obtain ⟨routines, trace, hat, hroutines⟩ := m.routineAt_eq address
  rw [enter_eq, hat]
  by_cases hdepth : m.limits.maxDepth ≤ m.depth
  · rw [if_pos hdepth]
    exact .inl ⟨_, _, rfl, .depth hdepth, declined_of_content (.inl rfl) rfl rfl⟩
  rw [if_neg hdepth]
  have hless := Nat.not_le.mp hdepth
  cases hfor : m.routineFor address with
  | error f =>
    obtain ⟨hnew, hf⟩ := routineFor_error_iff.mp hfor
    exact .inl ⟨f, _, rfl, .unread hless hnew hf, declined_of_content hroutines rfl rfl⟩
  | ok r =>
    dsimp only
    cases hconvention : r.convention with
    | localArguments =>
      rw [pass_locals hconvention]
      refine .inr ⟨r, _, rfl, fun f hf => ?_, accepted_locals hroutines hfor hconvention⟩
      obtain ⟨hstack, -⟩ := hf.of_routine hless hfor
      rw [hconvention] at hstack
      cases hstack
    | stackArguments =>
      by_cases hroom : m.stack.pointer + 4 * (args.length + 1) ≤ m.stack.capacity
      · obtain ⟨stack, hpass, hcapacity, hcontent⟩ := pass_stack_of_le
          { m with routines := routines, trace := trace } address hconvention hroom
        refine .inr ⟨r, _, hpass, fun f hf => ?_,
          accepted_stack hargs hroutines hfor hconvention hcapacity hcontent⟩
        obtain ⟨-, hless⟩ := hf.of_routine hless hfor
        exact absurd hroom (Nat.not_le.mpr hless)
      · obtain ⟨stack, hpass, hcapacity, hcontent⟩ := pass_stack_of_lt
          { m with routines := routines, trace := trace } address hconvention (Nat.not_le.mp hroom)
        exact .inl ⟨_, _, hpass, .room hless hfor hconvention (Nat.not_le.mp hroom),
          declined_of_content hroutines hcapacity hcontent⟩

/-- **Passing arguments is exact and atomic.** A routine is refused for the one reason that applies,
and if none does then it is entered. A refusal leaves the frames, the content of the value stack,
memory, the host and the number of steps as they were. If the routine is entered, there is one more
frame, with the pointer of the value stack from before. A routine that wants its arguments on the
value stack finds all of its locals zero, and pops the number of its arguments and then the
arguments in their order, down to where the stack was before, with nothing changed below; another
leaves the stack alone and finds its arguments in its locals, narrowed to their widths, and zero in
those without an argument. -/
theorem enter_passes (m : Machine σ) (address : UInt32) (args : List UInt32)
    (hargs : args.length < 0x100000000) :
    (∀ f, (m.enter address args).1 = .error f ↔ m.Refuses address args.length f) ∧
    (∀ f m', m.enter address args = (.error f, m') → m.Declined address m') ∧
    ∀ r m', m.enter address args = (.ok r, m') → m.Accepted address args r m' := by
  rcases m.enter_cases address hargs with
    ⟨f, m', henter, hrefuses, hdeclined⟩ | ⟨r, m', henter, hnone, haccepted⟩
  · rw [henter]
    refine ⟨fun f' => ⟨fun h => ?_, fun h => ?_⟩, fun f' m'' h => ?_, fun r m'' h => ?_⟩
    · obtain rfl := Except.error.inj h
      exact hrefuses
    · rw [hrefuses.unique h]
    · obtain ⟨-, rfl⟩ := Prod.mk.inj h
      exact hdeclined
    · cases (Prod.mk.inj h).1
  · rw [henter]
    refine ⟨fun f => ⟨fun h => ?_, fun h => absurd h (hnone f)⟩, fun f m'' h => ?_,
      fun r' m'' h => ?_⟩
    · cases h
    · cases (Prod.mk.inj h).1
    · obtain ⟨hr, rfl⟩ := Prod.mk.inj h
      obtain rfl := Except.ok.inj hr
      exact haccepted

/-- A routine that wants its arguments on the value stack, on a machine whose stack holds a 9 and
has room for three more dwords. -/
def receiving : Machine Silent :=
  { memory := { bytes := #[0xC0, 1, 1, 0, 0] }
    stack := ⟨#[0, 0, 0, 9, 0, 0, 0, 0, 0, 0, 0, 0, 0, 0, 0, 0], 4, by decide⟩
    ramStart := 0, host := {} }

/-- There is room for two arguments and their number, but not for three. -/
theorem enter_passes_receiving :
    (∃ r m' s, receiving.enter 0 [5, 6] = (.ok r, m') ∧ m'.depth = 1 ∧
      m'.stack.popDwords 3 = .ok ([2, 5, 6], s) ∧ s.content = [0, 0, 0, 9]) ∧
    ∃ m', receiving.enter 0 [5, 6, 7] = (.error (.stackOverflow 16 4 16), m') ∧ m'.depth = 0 ∧
      m'.stack.content = [0, 0, 0, 9] := by
  have hcontent : receiving.stack.content = [0, 0, 0, 9] := by decide
  constructor
  · have hentered : (receiving.enter 0 [5, 6]).1.toOption.map Routine.convention =
        some .stackArguments := by
      decide +kernel
    obtain ⟨-, -, hpasses⟩ := enter_passes receiving 0 [5, 6] (by decide)
    rcases henter : receiving.enter 0 [5, 6] with ⟨f | r, m'⟩
    · rw [henter] at hentered
      cases hentered
    · rw [henter] at hentered
      have haccepted := hpasses r m' henter
      obtain ⟨frame, hframes, -⟩ := haccepted.frame
      have hstack := haccepted.stack
      rw [show r.convention = .stackArguments from Option.some.inj hentered] at hstack
      obtain ⟨count, s, hcount, hpop, -, hbelow⟩ := hstack
      obtain rfl : count = 2 := UInt32.toNat_inj.mp hcount
      refine ⟨r, m', s, rfl, ?_, hpop, hbelow.trans hcontent⟩
      rw [depth, hframes, Array.size_push]
      rfl
  · have hrefused : ((receiving.enter 0 [5, 6, 7]).1.map fun _ => ()) =
        .error (.stackOverflow 16 4 16) := by
      decide +kernel
    obtain ⟨-, hpasses, -⟩ := enter_passes receiving 0 [5, 6, 7] (by decide)
    rcases henter : receiving.enter 0 [5, 6, 7] with ⟨f | r, m'⟩
    · rw [henter] at hrefused
      obtain rfl := Except.error.inj hrefused
      have hdeclined := hpasses _ m' henter
      refine ⟨m', rfl, ?_, hdeclined.content.trans hcontent⟩
      rw [depth, hdeclined.frames]
      rfl
    · rw [henter] at hrefused
      cases hrefused

end Machine

end StoryVM
