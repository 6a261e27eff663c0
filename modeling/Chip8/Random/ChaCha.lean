import Chip8.Nibble

namespace Chip8.Random

abbrev Key := Vector UInt32 8

abbrev Block := Vector UInt32 16

namespace Block

def rotateLeft (w : UInt32) (count : UInt32) : UInt32 := w <<< count ||| w >>> (32 - count)

def put (s : Block) (i : Nibble) (w : UInt32) : Block := s.set i.val w i.lt

/-- Adds one word to another. -/
def add (s : Block) (i j : Nibble) : Block := s.put i (s.get i + s.get j)

/-- Combines one word with another and rotates the result. -/
def turn (s : Block) (i j : Nibble) (count : UInt32) : Block :=
  s.put i (rotateLeft (s.get i ^^^ s.get j) count)

/-- Mixes four words of a block. -/
def quarterRound (s : Block) (a b c d : Nibble) : Block :=
  let s := (s.add a b).turn d a 16
  let s := (s.add c d).turn b c 12
  let s := (s.add a b).turn d a 8
  (s.add c d).turn b c 7

/-- The words lie in four rows of four: first the columns are mixed, then the diagonals. -/
def doubleRound (s : Block) : Block :=
  let s := s.quarterRound 0 4 8 12
  let s := s.quarterRound 1 5 9 13
  let s := s.quarterRound 2 6 10 14
  let s := s.quarterRound 3 7 11 15
  let s := s.quarterRound 0 5 10 15
  let s := s.quarterRound 1 6 11 12
  let s := s.quarterRound 2 7 8 13
  s.quarterRound 3 4 9 14

/-- Four constants, the key, the 64-bit block number and a zero nonce. -/
def start (key : Key) (number : UInt64) : Block := #v[
  0x61707865, 0x3320646e, 0x79622d32, 0x6b206574,
  key[0], key[1], key[2], key[3], key[4], key[5], key[6], key[7],
  number.toUInt32, (number >>> 32).toUInt32, 0, 0]

def keystream (key : Key) (number : UInt64) : Block :=
  let s := start key number
  let mixed := (List.range 6).foldl (fun s _ => s.doubleRound) s
  Vector.zipWith (· + ·) mixed s

end Block

end Chip8.Random
