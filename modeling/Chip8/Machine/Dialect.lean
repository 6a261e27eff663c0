namespace Chip8

structure Dialect where
  /-- A shift takes its value from the second register instead of the first. -/
  shiftUsesVy : Bool
  /-- Storing and loading registers leaves the index past the last one. -/
  incrementIndex : Bool
  deriving DecidableEq, Repr

namespace Dialect

def modern : Dialect := ⟨false, false⟩

def cosmacVip : Dialect := ⟨true, true⟩

end Dialect

end Chip8
