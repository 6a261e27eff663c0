namespace Chip8

/-- Not everything fitted. What did fit is in the buffer. -/
structure ShortWrite where
  written : List UInt8
  deriving DecidableEq, Repr

def ShortWrite.message (_ : ShortWrite) : String := "failed to write whole buffer"

/-- Fills a buffer from its start, and fails when it is full before the bytes end. -/
def fillBuffer (capacity : Nat) (bytes : List UInt8) : Except ShortWrite (List UInt8) :=
  if bytes.length ≤ capacity then .ok bytes else .error ⟨bytes.take capacity⟩

end Chip8
