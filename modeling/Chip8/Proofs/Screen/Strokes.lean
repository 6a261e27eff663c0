import Chip8.Proofs.Run
import Chip8.Proofs.Screen.Pixels

namespace Chip8

/-- A sprite row and where it is drawn. -/
structure Stroke where
  x : Nat
  y : Nat
  byte : UInt8
  deriving DecidableEq

namespace Stroke

open FrameBuffer

/-- Whether a pixel lies under a set bit of the row, which starts over at the edge if it is drawn
off the screen. -/
def covers (s : Stroke) (column row : Nat) : Bool :=
  let left := if s.x < 64 then s.x else 0
  let top := if s.y < 32 then s.y else 0
  decide (row = top ∧ left ≤ column ∧ column < left + 8) &&
    s.byte.toNat.testBit (7 - (column - left))

theorem covers_eq (s : Stroke) (column row : Nat) :
    s.covers column row =
      (decide (row = origin height s.y) && rowCovers (origin width s.x) s.byte column) := by
  rw [rowCovers, ← Bool.and_assoc, ← Bool.decide_and]
  rfl

/-- An odd number of strokes lie over a pixel. -/
def coverOddly (strokes : List Stroke) (column row : Nat) : Bool :=
  strokes.countP (·.covers column row) % 2 == 1

theorem coverOddly_cons (s : Stroke) (strokes : List Stroke) (column row : Nat) :
    coverOddly (s :: strokes) column row =
      (s.covers column row ^^ coverOddly strokes column row) := by
  unfold coverOddly
  rw [List.countP_cons]
  cases s.covers column row with
  | false => simp
  | true =>
    rcases Nat.mod_two_eq_zero_or_one (strokes.countP (·.covers column row)) with h | h <;>
      simp [Nat.add_mod, h]

/-- How many strokes lie over a pixel has nothing to do with their order. -/
theorem coverOddly_perm {strokes others : List Stroke} (h : strokes.Perm others)
    (column row : Nat) : coverOddly strokes column row = coverOddly others column row := by
  unfold coverOddly
  rw [h.countP_eq]

end Stroke

namespace FrameBuffer

/-- Draws a row and tells whether a lit pixel was turned off. -/
def stroke (f : FrameBuffer) (s : Stroke) : Bool × FrameBuffer := f.drawByte s.x s.y s.byte

theorem pixel_stroke (f : FrameBuffer) (s : Stroke) {column : Nat} (hcolumn : column < width)
    (row : Nat) :
    (f.stroke s).2.pixel column row = (f.pixel column row ^^ s.covers column row) := by
  rw [stroke, pixel_drawByte _ _ _ _ hcolumn, Stroke.covers_eq]
  by_cases hrow : row = origin height s.y
  · simp [hrow]
  · simp [hrow]

theorem pixel_strokes (f : FrameBuffer) (strokes : List Stroke) {column : Nat}
    (hcolumn : column < width) (row : Nat) :
    (runAll stroke f strokes).2.pixel column row =
      (f.pixel column row ^^ Stroke.coverOddly strokes column row) := by
  induction strokes generalizing f with
  | nil => exact (Bool.xor_false _).symm
  | cons s strokes ih =>
    rw [runAll_cons, ih, pixel_stroke _ _ hcolumn, Stroke.coverOddly_cons, Bool.xor_assoc]

theorem strokes_perm (f : FrameBuffer) {strokes others : List Stroke} (h : strokes.Perm others) :
    (runAll stroke f others).2 = (runAll stroke f strokes).2 := by
  apply ext_pixel
  intro column hcolumn row _
  rw [pixel_strokes _ _ hcolumn, pixel_strokes _ _ hcolumn, Stroke.coverOddly_perm h]

theorem strokes_strokes (f : FrameBuffer) {strokes others : List Stroke} (h : strokes.Perm others) :
    (runAll stroke (runAll stroke f strokes).2 others).2 = f := by
  apply ext_pixel
  intro column hcolumn row _
  rw [pixel_strokes _ _ hcolumn, pixel_strokes _ _ hcolumn, Stroke.coverOddly_perm h,
    Bool.xor_assoc, Bool.xor_self, Bool.xor_false]

/-- Strokes toggle the pixels that an odd number of them lie over, whatever their order, and take
themselves off the screen when they are drawn again. -/
theorem strokes_show_by_parity (f : FrameBuffer) (strokes : List Stroke) :
    (∀ column < width, ∀ row < height,
      (runAll stroke f strokes).2.pixel column row =
        (f.pixel column row ^^ (strokes.countP (·.covers column row) % 2 == 1))) ∧
      ∀ others, strokes.Perm others →
        (runAll stroke f others).2 = (runAll stroke f strokes).2 ∧
          (runAll stroke (runAll stroke f strokes).2 others).2 = f := by
  refine ⟨?_, ?_⟩
  · intro column hcolumn row _
    exact pixel_strokes f strokes hcolumn row
  · intro others hperm
    exact ⟨strokes_perm f hperm, strokes_strokes f hperm⟩

/-- A row cut off at the right edge, two pixels of which are turned off again, and a row that starts
over at the top. -/
theorem overlapping_strokes_cancel :
    let strokes : List Stroke := [⟨60, 1, 0xFF⟩, ⟨0, 33, 0x80⟩, ⟨62, 1, 0xC0⟩]
    let others : List Stroke := [⟨62, 1, 0xC0⟩, ⟨60, 1, 0xFF⟩, ⟨0, 33, 0x80⟩]
    let drawn := (runAll stroke blank strokes).2
    strokes.Perm others ∧ drawn.pixel 60 1 = true ∧ drawn.pixel 62 1 = false ∧
      drawn.pixel 0 0 = true ∧ drawn.pixel 0 1 = false ∧
      (runAll stroke blank others).2 = drawn ∧ (runAll stroke drawn others).2 = blank := by
  intro strokes others drawn
  obtain ⟨hpixels, hperm⟩ := strokes_show_by_parity blank strokes
  have hothers : strokes.Perm others := by decide
  obtain ⟨hsame, hback⟩ := hperm others hothers
  refine ⟨hothers, ?_, ?_, ?_, ?_, hsame, hback⟩
  · exact (hpixels 60 (by decide) 1 (by decide)).trans (by decide +kernel)
  · exact (hpixels 62 (by decide) 1 (by decide)).trans (by decide +kernel)
  · exact (hpixels 0 (by decide) 0 (by decide)).trans (by decide +kernel)
  · exact (hpixels 0 (by decide) 1 (by decide)).trans (by decide +kernel)

end FrameBuffer

end Chip8
