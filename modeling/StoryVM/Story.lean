import StoryVM.Machine.Run

/-! # Story files

A story file is a memory image with a header. Loading checks the image, grows memory to its full
size, protects everything below the start of writable memory, and reads the routine to start with.
Running the story calls that routine without arguments. -/

namespace StoryVM

/-- **A loaded story.** -/
structure Story (σ : Type) where
  header : Header
  machine : Machine σ
  /-- The routine that the story starts with. -/
  start : Routine

/-- A story that could not be loaded: why, and the events up to there. -/
structure LoadFailure where
  fault : Fault
  trace : Array Event := #[]
  deriving DecidableEq, Repr

namespace Story

variable {σ : Type}

/-- **Checks an image** and lays out its memory. -/
def layOut (image : Array UInt8) : Except Fault (Header × Memory) := do
  let m : Memory := { bytes := image }
  let h ← Header.read m
  if m.size ≠ h.extStart.toNat then throw (.malformedImage (.lengthMismatch m.size h.extStart))
  if m.checksum ≠ h.checksum then
    throw (.malformedImage (.checksumMismatch m.checksum h.checksum))
  if h.stackSize % 256 ≠ 0 then throw (.malformedImage (.unevenStack h.stackSize))
  match m.expand h.endMem with
  | .error _ => throw (.malformedImage (.endBelowStart h.endMem h.extStart))
  | .ok m => return (h, m.protect ⟨0, h.ramStart⟩)

/-- **Loads a story** from its image. -/
def load (image : Array UInt8) (host : σ) (limits : Limits) : Except LoadFailure (Story σ) :=
  match layOut image with
  | .error fault => .error { fault := fault }
  | .ok (h, memory) =>
    let m : Machine σ :=
      { memory := memory, stack := Stack.empty h.stackSize.toNat, ramStart := h.ramStart,
        host := host, limits := limits, trace := #[.loading h] }
    match m.routineAt h.startFunc with
    | (.error fault, m) => .error ⟨fault, m.trace⟩
    | (.ok r, m) => .ok ⟨h, m, r⟩

/-- **Runs the story** from its start routine. -/
def run [Host σ] (s : Story σ) (fuel : Nat) : Option (Except Fault UInt32 × Story σ) :=
  (s.machine.call fuel s.header.startFunc []).map fun p => (p.1, { s with machine := p.2 })

end Story

end StoryVM
