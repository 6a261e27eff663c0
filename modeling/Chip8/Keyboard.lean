namespace Chip8

/-- The keys that mean something. All others are one. -/
inductive HostKey
  | one | two | three | four
  | q | w | e | r
  | a | s | d | f
  | z | x | c | v
  | p
  | left
  | right
  | backspace
  | escape
  | other
  deriving DecidableEq, Repr

namespace HostKey

/-- The keypad's keys by their place on the host's keyboard, where they are sixteen keys in a square
under the digits one to four. -/
def layout : List (HostKey × UInt8) := [
  (one, 0x1), (two, 0x2), (three, 0x3), (four, 0xC),
  (q, 0x4), (w, 0x5), (e, 0x6), (r, 0xD),
  (a, 0x7), (s, 0x8), (d, 0x9), (f, 0xE),
  (z, 0xA), (x, 0x0), (c, 0xB), (v, 0xF)]

def keypadKey? (k : HostKey) : Option UInt8 := layout.lookup k

end HostKey

/-- An order in which the keys of the keypad are visited, each of them once. Nothing says which
order it is. -/
structure KeyOrder where
  keys : List (HostKey × UInt8)
  perm : keys.Perm HostKey.layout
  deriving DecidableEq, Repr

namespace KeyOrder

def asLaidOut : KeyOrder := ⟨HostKey.layout, .refl _⟩

def backwards : KeyOrder := ⟨HostKey.layout.reverse, List.reverse_perm _⟩

end KeyOrder

end Chip8
