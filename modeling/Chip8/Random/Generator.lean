import Chip8.Random.ChaCha

namespace Chip8.Random

namespace Key

/-- The state from which a seed's next key word is read: a 64-bit linear congruence. -/
def advance (s : UInt64) : UInt64 := s * 6364136223846793005 + 11634580027462260723

/-- A word of the key: the state's high bits, shifted over each other and rotated by the top five. -/
def permute (s : UInt64) : UInt32 :=
  let w := (((s >>> 18) ^^^ s) >>> 27).toUInt32
  let turn := (s >>> 59).toUInt32
  w >>> turn ||| w <<< (32 - turn)

/-- The state after so many steps. -/
def stateAfter (seed : UInt64) : Nat → UInt64
  | 0 => seed
  | steps + 1 => advance (stateAfter seed steps)

def ofSeed (seed : UInt64) : Key := Vector.ofFn fun i : Fin 8 => permute (stateAfter seed (i.val + 1))

/-- A word of the stream, counted from zero. -/
def word (key : Key) (position : Nat) : UInt32 :=
  (Block.keystream key (UInt64.ofNat (position / 16)))[position % 16]

end Key

/-- The words of all blocks of a key, in order, are one endless stream, and drawing takes the next
of them. -/
structure Generator where
  key : Key
  /-- How many words have been drawn. -/
  drawn : Nat
  deriving DecidableEq

namespace Generator

def ofKey (key : Key) : Generator := ⟨key, 0⟩

def ofSeed (seed : UInt64) : Generator := ofKey (Key.ofSeed seed)

/-- The low byte of the next word. -/
def next (g : Generator) : UInt8 × Generator :=
  ((g.key.word g.drawn).toUInt8, { g with drawn := g.drawn + 1 })

end Generator

end Chip8.Random
