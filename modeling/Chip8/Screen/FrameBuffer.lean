namespace Chip8

/-- The most significant bit of a row is its leftmost pixel. -/
structure FrameBuffer where
  rows : Vector (BitVec 64) 32
  deriving DecidableEq

namespace FrameBuffer

def width : Nat := 64

def height : Nat := 32

def blank : FrameBuffer := ⟨Vector.replicate 32 0⟩

/-- Whether a pixel is lit. Outside the screen none is. -/
def pixel (f : FrameBuffer) (x y : Nat) : Bool :=
  if h : y < 32 then f.rows[y].getMsbD x else false

/-- All pixels, row by row from the top and each row from the left. -/
def pixels (f : FrameBuffer) : List Bool :=
  (List.range height).flatMap fun y => (List.range width).map fun x => f.pixel x y

def isBlank (f : FrameBuffer) : Bool := f.rows.all (· == 0)

/-- How many pixels are lit. -/
def lit (f : FrameBuffer) : Nat := f.rows.foldl (fun count row => count + row.cpop.toNat) 0

/-- A sprite row as it lies over the screen row, its high bit at column `x`. Bits past the right
edge fall off. -/
def spriteRow (x : Nat) (byte : UInt8) : BitVec 64 := (byte.toBitVec ++ 0#56) >>> x

/-- Where drawing starts on an axis: at the coordinate, or at 0 if it is off the screen. -/
def origin (extent coordinate : Nat) : Nat := if coordinate < extent then coordinate else 0

theorem origin_lt {extent : Nat} (h : 0 < extent) (coordinate : Nat) :
    origin extent coordinate < extent := by
  unfold origin
  split <;> assumption

/-- Toggles the pixels under one sprite row, and tells whether one of them was lit before. -/
def drawByte (f : FrameBuffer) (x y : Nat) (byte : UInt8) : Bool × FrameBuffer :=
  let sprite := spriteRow (origin width x) byte
  have h : origin height y < 32 := origin_lt (by decide) y
  let row := f.rows[origin height y]
  (row &&& sprite != 0, ⟨f.rows.set (origin height y) (row ^^^ sprite)⟩)

/-- Draws sprite rows below each other, and tells whether any turned a lit pixel off. Rows past the
bottom edge fall off. -/
def drawRows (f : FrameBuffer) (x y : Nat) : List UInt8 → Bool × FrameBuffer
  | [] => (false, f)
  | byte :: rest =>
    if y < height then
      let (hit, f) := f.drawByte x y byte
      let (more, f) := f.drawRows x (y + 1) rest
      (hit || more, f)
    else (false, f)

end FrameBuffer

end Chip8
