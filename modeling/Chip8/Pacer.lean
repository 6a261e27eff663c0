namespace Chip8

/-- A second, in nanoseconds. -/
def second : Nat := 1000000000

/-- How many clock cycles each frame runs, and the rates that were really reached. Instants are
nanoseconds since the session began. -/
structure Pacer where
  /-- Cycles wanted in a second. -/
  hz : UInt32
  /-- Frames wanted in a second. -/
  fps : UInt32
  /-- The number of the next frame within its second. -/
  frame : UInt32
  /-- Since when cycles and frames are being counted. -/
  windowStart : Nat
  windowCycles : UInt32
  windowFrames : UInt32
  /-- The counts of the last full window. -/
  measuredHz : UInt32
  measuredFps : UInt32
  deriving DecidableEq, Repr

/-- Why a frame cannot be counted. -/
inductive PacerError
  /-- A counter cannot hold the sum. -/
  | overflow
  deriving DecidableEq, Repr

def PacerError.message : PacerError → String
  | .overflow => "attempt to add with overflow"

namespace Pacer

/-- At least one frame is drawn in a second. -/
def start (hz fps : UInt32) (now : Nat) : Pacer where
  hz := hz
  fps := max fps 1
  frame := 0
  windowStart := now
  windowCycles := 0
  windowFrames := 0
  measuredHz := 0
  measuredFps := 0

/-- How many cycles a frame runs. What does not divide evenly falls to the last frame of a
second. -/
def cyclesOf (hz fps frame : UInt32) : UInt32 :=
  let base := hz / fps
  if frame = fps - 1 then hz - base * (fps - 1) else base

/-- The cycles of the next frame. -/
def nextFrame (p : Pacer) : UInt32 × Pacer :=
  (cyclesOf p.hz p.fps p.frame, { p with frame := (p.frame + 1) % p.fps })

/-- The counters can hold one more frame. -/
def Takes (p : Pacer) (cycles : UInt32) : Prop :=
  p.windowCycles.toNat + cycles.toNat < UInt32.size ∧ p.windowFrames.toNat + 1 < UInt32.size

instance (p : Pacer) (cycles : UInt32) : Decidable (p.Takes cycles) :=
  inferInstanceAs (Decidable (_ ∧ _))

/-- Counts a frame that has run. Once a second has passed the counts become the measured rates and
counting starts over. -/
def record (p : Pacer) (now : Nat) (cycles : UInt32) : Except PacerError Pacer :=
  if p.Takes cycles then
    let p := { p with windowCycles := p.windowCycles + cycles, windowFrames := p.windowFrames + 1 }
    if second ≤ now - p.windowStart then
      .ok { p with
        measuredHz := p.windowCycles
        measuredFps := p.windowFrames
        windowCycles := 0
        windowFrames := 0
        windowStart := now }
    else .ok p
  else .error .overflow

/-- How long a frame lasts, in whole nanoseconds. -/
def frameDuration (p : Pacer) : Nat := second / p.fps.toNat

end Pacer

end Chip8
