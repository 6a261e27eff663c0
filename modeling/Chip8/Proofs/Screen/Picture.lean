import Chip8.Proofs.Screen.Pixels
import Chip8.Screen.Picture

namespace Chip8

/-- Pieces of one size that are laid end to end begin at the multiples of it. -/
theorem take_drop_flatMap {α β : Type} {piece : α → List β} {n : Nat}
    (hpiece : ∀ a, (piece a).length = n) {xs : List α} {k : Nat} (hk : k < xs.length) :
    ((xs.flatMap piece).drop (n * k)).take n = piece xs[k] := by
  induction xs generalizing k with
  | nil => cases hk
  | cons x xs ih =>
    rw [List.flatMap_cons]
    cases k with
    | zero =>
      rw [Nat.mul_zero, List.drop_zero]
      exact List.take_left' (hpiece x)
    | succ k =>
      have hskip : n * (k + 1) = (piece x).length + n * k := by
        rw [hpiece, Nat.mul_succ, Nat.add_comm]
      rw [hskip, List.drop_length_add_append]
      exact ih (Nat.lt_of_succ_lt_succ hk)

theorem length_flatMap_of_length_eq {α β : Type} {piece : α → List β} {n : Nat}
    (hpiece : ∀ a, (piece a).length = n) (xs : List α) :
    (xs.flatMap piece).length = n * xs.length := by
  simp [List.length_flatMap, hpiece, List.map_const', Nat.mul_comm]

namespace FrameBuffer

theorem length_pixels (f : FrameBuffer) : f.pixels.length = width * height := by
  rw [pixels, length_flatMap_of_length_eq (n := width), List.length_range]
  simp

theorem getElem_pixels (f : FrameBuffer) {x y : Nat} (hx : x < width) (hy : y < height) :
    f.pixels[width * y + x]? = some (f.pixel x y) := by
  have hwidth : ∀ y, ((List.range width).map fun x => f.pixel x y).length = width := by simp
  have hrow := take_drop_flatMap hwidth (show y < (List.range height).length by simpa)
  have hplace := congrArg (fun row => row[x]?) hrow
  unfold pixels
  simpa [hx, List.getElem?_take_of_lt, List.getElem?_drop] using hplace

end FrameBuffer

namespace Picture

open FrameBuffer

theorem length_colour (on : Bool) : (colour on).length = 4 := by cases on <;> rfl

/-- Each colour stands for one kind of pixel. -/
theorem colour_injective {a b : Bool} (h : colour a = colour b) : a = b := by
  cases a <;> cases b <;> simp_all [colour, lit, dark]

/-- On a surface with just enough room, painting leaves nothing of what was there. -/
theorem paint_eq_flatMap {pixels : List Bool} {surface : List UInt8}
    (h : surface.length = 4 * pixels.length) : paint pixels surface = pixels.flatMap colour := by
  induction pixels generalizing surface with
  | nil =>
    rw [List.length_nil, Nat.mul_zero, List.length_eq_zero_iff] at h
    rw [h]
    rfl
  | cons on pixels ih =>
    match surface with
    | _ :: _ :: _ :: _ :: rest =>
      simp only [List.length_cons] at h
      rw [paint, List.flatMap_cons, ih (by omega)]
    | [] | [_] | [_, _] | [_, _, _] =>
      simp only [List.length_cons, List.length_nil] at h
      omega

theorem render_eq_flatMap (screen : FrameBuffer) {surface : List UInt8}
    (h : surface.length = surfaceSize) : render screen surface = screen.pixels.flatMap colour := by
  apply paint_eq_flatMap
  rw [h, length_pixels, Nat.mul_comm]
  rfl

/-- The four bytes that show a pixel. -/
def shown (surface : List UInt8) (x y : Nat) : List UInt8 :=
  (surface.drop (4 * (width * y + x))).take 4

theorem shown_render (screen : FrameBuffer) {surface : List UInt8}
    (h : surface.length = surfaceSize) {x y : Nat} (hx : x < width) (hy : y < height) :
    shown (render screen surface) x y = colour (screen.pixel x y) := by
  obtain ⟨hplace, hpixel⟩ := List.getElem?_eq_some_iff.mp (screen.getElem_pixels hx hy)
  rw [shown, render_eq_flatMap screen h, take_drop_flatMap length_colour hplace, hpixel]

/-- The bytes of a pixel have the one colour if it is lit and the other if it is not. So the picture
owes nothing to what was on the surface before, and no other screen has the same picture. -/
theorem render_is_exact_picture (screen : FrameBuffer) {surface : List UInt8}
    (h : surface.length = 64 * 32 * 4) :
    let picture := render screen surface
    picture.length = 64 * 32 * 4 ∧
      (∀ x < 64, ∀ y < 32,
        (shown picture x y = [0x33, 0xFF, 0x66, 0xFF] ↔ screen.pixel x y = true) ∧
          (shown picture x y = [0x00, 0x00, 0x00, 0xFF] ↔ screen.pixel x y = false)) ∧
      (∀ before, before.length = 64 * 32 * 4 → render screen before = picture) ∧
      ∀ other before, before.length = 64 * 32 * 4 →
        render other before = picture → other = screen := by
  intro picture
  have hpicture : picture = screen.pixels.flatMap colour := render_eq_flatMap screen h
  refine ⟨?_, ?_, ?_, ?_⟩
  · rw [hpicture, length_flatMap_of_length_eq length_colour, length_pixels]
    rfl
  · intro x hx y hy
    have hshown : shown picture x y = colour (screen.pixel x y) := shown_render screen h hx hy
    rw [hshown]
    cases screen.pixel x y <;> simp [colour, lit, dark]
  · intro before hbefore
    exact (render_eq_flatMap screen hbefore).trans hpicture.symm
  · intro other before hbefore hsame
    apply ext_pixel
    intro x hx y hy
    apply colour_injective
    rw [← shown_render other hbefore hx hy, ← shown_render screen h hx hy, hsame]

/-- A row that is cut off at the right edge, painted over a surface all of one byte. -/
theorem picture_of_row_at_edge :
    let screen := (blank.drawByte 62 1 0xA0).2
    let surface := List.replicate (64 * 32 * 4) 0x33
    let picture := render screen surface
    surface.length = 64 * 32 * 4 ∧ picture.length = 64 * 32 * 4 ∧
      shown picture 62 1 = [0x33, 0xFF, 0x66, 0xFF] ∧
      shown picture 63 1 = [0x00, 0x00, 0x00, 0xFF] ∧
      shown picture 0 2 = [0x00, 0x00, 0x00, 0xFF] ∧
      render screen emptySurface = picture ∧ render blank surface ≠ picture := by
  intro screen surface picture
  have hsurface : surface.length = 64 * 32 * 4 := List.length_replicate
  obtain ⟨hlength, hpixels, hbefore, hother⟩ := render_is_exact_picture screen hsurface
  obtain ⟨hlit, hdark, hbelow⟩ : screen.pixel 62 1 = true ∧ screen.pixel 63 1 = false ∧
      screen.pixel 0 2 = false := by
    decide +kernel
  refine ⟨hsurface, hlength, ?_, ?_, ?_, hbefore emptySurface List.length_replicate, ?_⟩
  · exact (hpixels 62 (by decide) 1 (by decide)).1.mpr hlit
  · exact (hpixels 63 (by decide) 1 (by decide)).2.mpr hdark
  · exact (hpixels 0 (by decide) 2 (by decide)).2.mpr hbelow
  · intro hsame
    have hblank : blank = screen := hother blank surface hsurface hsame
    rw [← hblank] at hlit
    exact absurd hlit (by decide +kernel)

end Picture

end Chip8
