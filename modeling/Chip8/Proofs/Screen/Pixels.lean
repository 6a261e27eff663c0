import Chip8.Screen.FrameBuffer

namespace Chip8.FrameBuffer

/-- Two screens that show the same are the same. -/
theorem ext_pixel {f g : FrameBuffer}
    (h : ∀ x < width, ∀ y < height, f.pixel x y = g.pixel x y) : f = g := by
  obtain ⟨fs⟩ := f
  obtain ⟨gs⟩ := g
  refine congrArg mk (Vector.ext fun y hy => ?_)
  apply BitVec.eq_of_getMsbD_eq
  intro x hx
  simpa only [pixel, dif_pos hy] using h x hx y hy

/-- A set bit of a sprite row, whose high bit is at column `left`, lies over a column. -/
def rowCovers (left : Nat) (byte : UInt8) (x : Nat) : Bool :=
  decide (left ≤ x ∧ x < left + 8) && byte.toNat.testBit (7 - (x - left))

/-- A set bit of a sprite lies over a pixel. The sprite's upper left corner is at `left`, `top`. -/
def covers (left top : Nat) (sprite : List UInt8) (x y : Nat) : Bool :=
  decide (top ≤ y) && rowCovers left (sprite[y - top]?.getD 0) x

/-- A pixel lit on the first screen is not lit on the second. -/
def TurnsOff (f g : FrameBuffer) : Prop :=
  ∃ x < width, ∃ y < height, f.pixel x y = true ∧ g.pixel x y = false

instance (f g : FrameBuffer) : Decidable (TurnsOff f g) :=
  inferInstanceAs (Decidable (∃ x < width, ∃ y < height, _))

/-- A pixel not lit on the first screen is lit on the second. -/
def TurnsOn (f g : FrameBuffer) : Prop := TurnsOff g f

instance (f g : FrameBuffer) : Decidable (TurnsOn f g) := inferInstanceAs (Decidable (TurnsOff g f))

theorem rowCovers_zero (left x : Nat) : rowCovers left 0 x = false := by
  simp [rowCovers]

theorem covers_nil (left top x y : Nat) : covers left top [] x y = false := by
  simp [covers, rowCovers_zero]

theorem top_le_of_covers {left top : Nat} {sprite : List UInt8} {x y : Nat}
    (h : covers left top sprite x y = true) : top ≤ y :=
  of_decide_eq_true (Bool.and_eq_true_iff.mp h).1

theorem covers_above {top y : Nat} (h : y < top) (left : Nat) (sprite : List UInt8) (x : Nat) :
    covers left top sprite x y = false := by
  simp [covers, Nat.not_le_of_lt h]

theorem covers_cons_top (left top : Nat) (byte : UInt8) (rest : List UInt8) (x : Nat) :
    covers left top (byte :: rest) x top = rowCovers left byte x := by
  simp [covers]

theorem covers_cons_of_ne {top y : Nat} (h : y ≠ top) (left : Nat) (byte : UInt8)
    (rest : List UInt8) (x : Nat) :
    covers left top (byte :: rest) x y = covers left (top + 1) rest x y := by
  rcases Nat.lt_or_gt_of_ne h with habove | hbelow
  · rw [covers_above habove, covers_above (Nat.lt_succ_of_lt habove)]
  · have hrow : y - top = y - (top + 1) + 1 := by omega
    have htop : top ≤ y := Nat.le_of_lt hbelow
    simp only [covers, htop, Nat.succ_le_of_lt hbelow, hrow, List.getElem?_cons_succ]

theorem getMsbD_spriteRow (left : Nat) (byte : UInt8) {x : Nat} (h : x < width) :
    (spriteRow left byte).getMsbD x = rowCovers left byte x := by
  have hx : x < 64 := h
  simp only [spriteRow, rowCovers, BitVec.getMsbD_ushiftRight, BitVec.getMsbD_append,
    BitVec.getMsbD_zero, hx, decide_true, Bool.true_and]
  by_cases hleft : left ≤ x
  · by_cases hright : x < left + 8
    · have hinside : x - left < 8 := by omega
      rw [if_neg (Nat.not_le_of_lt hinside), BitVec.getMsbD, decide_eq_true hinside]
      simp only [hleft, hright, Nat.not_lt_of_le hleft, decide_false, decide_true, and_self,
        Bool.not_false, Bool.true_and]
      rfl
    · have houtside : 8 ≤ x - left := by omega
      simp [hright, houtside]
  · simp [hleft, Nat.lt_of_not_le hleft]

theorem ne_zero_iff_exists_getMsbD {w : Nat} (v : BitVec w) :
    v ≠ 0 ↔ ∃ i < w, v.getMsbD i = true := by
  constructor
  · intro hne
    apply Classical.byContradiction
    intro hnone
    refine hne (BitVec.eq_of_getMsbD_eq fun i hi => ?_)
    simpa using fun hset => hnone ⟨i, hi, hset⟩
  · rintro ⟨i, -, hset⟩ rfl
    simp at hset

theorem drawByte_eq (f : FrameBuffer) (x y : Nat) (byte : UInt8) (hy : origin height y < 32) :
    f.drawByte x y byte =
      (f.rows[origin height y] &&& spriteRow (origin width x) byte != 0,
        ⟨f.rows.set (origin height y)
          (f.rows[origin height y] ^^^ spriteRow (origin width x) byte) hy⟩) := rfl

theorem pixel_drawByte (f : FrameBuffer) (x y : Nat) (byte : UInt8) {column row : Nat}
    (hcolumn : column < width) :
    (f.drawByte x y byte).2.pixel column row =
      if row = origin height y then
        f.pixel column row ^^ rowCovers (origin width x) byte column
      else f.pixel column row := by
  have hy : origin height y < 32 := origin_lt (by decide) y
  rw [drawByte_eq _ _ _ _ hy]
  unfold pixel
  by_cases hrow : row = origin height y
  · subst hrow
    simp only [dif_pos hy, if_true, Vector.getElem_set_self, BitVec.getMsbD_xor,
      getMsbD_spriteRow _ _ hcolumn]
  · simp only [if_neg hrow, Vector.getElem_set_ne hy _ (Ne.symm hrow)]

theorem drawByte_hit_iff (f : FrameBuffer) (x y : Nat) (byte : UInt8) :
    (f.drawByte x y byte).1 = true ↔
      ∃ column < width, f.pixel column (origin height y) = true ∧
        rowCovers (origin width x) byte column = true := by
  have hy : origin height y < 32 := origin_lt (by decide) y
  rw [drawByte_eq _ _ _ _ hy, bne_iff_ne, ne_zero_iff_exists_getMsbD]
  refine exists_congr fun column => and_congr_right fun hcolumn => ?_
  simp only [pixel, dif_pos hy, BitVec.getMsbD_and, Bool.and_eq_true, getMsbD_spriteRow _ _ hcolumn]

theorem origin_of_lt {extent coordinate : Nat} (h : coordinate < extent) :
    origin extent coordinate = coordinate := if_pos h

theorem pixel_drawRows (f : FrameBuffer) (x y : Nat) (sprite : List UInt8) {column row : Nat}
    (hcolumn : column < width) (hrow : row < height) :
    (f.drawRows x y sprite).2.pixel column row =
      (f.pixel column row ^^ covers (origin width x) y sprite column row) := by
  induction sprite generalizing f y with
  | nil => simp [drawRows, covers_nil]
  | cons byte rest ih =>
    unfold drawRows
    by_cases hy : y < height
    · simp only [if_pos hy]
      rw [ih, pixel_drawByte _ _ _ _ hcolumn, origin_of_lt hy]
      by_cases htop : row = y
      · subst htop
        simp [covers_cons_top, covers_above (Nat.lt_succ_self row)]
      · rw [if_neg htop, covers_cons_of_ne htop]
    · have habove : row < y := Nat.lt_of_lt_of_le hrow (Nat.le_of_not_lt hy)
      simp [hy, covers_above habove]

theorem drawRows_hit_iff (f : FrameBuffer) (x y : Nat) (sprite : List UInt8) :
    (f.drawRows x y sprite).1 = true ↔
      ∃ column < width, ∃ row < height, f.pixel column row = true ∧
        covers (origin width x) y sprite column row = true := by
  induction sprite generalizing f y with
  | nil => simp [drawRows, covers_nil]
  | cons byte rest ih =>
    unfold drawRows
    by_cases hy : y < height
    · -- The rows that follow lie below this one, so they find the pixels they meet as they were.
      have hbelow {column row : Nat} (hcolumn : column < width) (hne : row ≠ y) :
          (f.drawByte x y byte).2.pixel column row = f.pixel column row := by
        rw [pixel_drawByte _ _ _ _ hcolumn, origin_of_lt hy, if_neg hne]
      simp only [if_pos hy, Bool.or_eq_true, ih, drawByte_hit_iff, origin_of_lt hy]
      constructor
      · rintro (⟨column, hcolumn, hlit, hset⟩ | ⟨column, hcolumn, row, hrow, hlit, hset⟩)
        · exact ⟨column, hcolumn, y, hy, hlit, by rwa [covers_cons_top]⟩
        · have hne : row ≠ y := Nat.ne_of_gt (top_le_of_covers hset)
          rw [hbelow hcolumn hne] at hlit
          exact ⟨column, hcolumn, row, hrow, hlit, by rwa [covers_cons_of_ne hne]⟩
      · rintro ⟨column, hcolumn, row, hrow, hlit, hset⟩
        by_cases htop : row = y
        · subst htop
          rw [covers_cons_top] at hset
          exact .inl ⟨column, hcolumn, hlit, hset⟩
        · rw [covers_cons_of_ne htop] at hset
          exact .inr ⟨column, hcolumn, row, hrow, by rwa [hbelow hcolumn htop], hset⟩
    · simp only [if_neg hy, Bool.false_eq_true, false_iff]
      rintro ⟨column, -, row, hrow, -, hset⟩
      exact hy (Nat.lt_of_le_of_lt (top_le_of_covers hset) hrow)

/-- What drawing reports is whether it turned a pixel off. -/
theorem drawRows_hit_iff_turnsOff (f : FrameBuffer) (x y : Nat) (sprite : List UInt8) :
    (f.drawRows x y sprite).1 = true ↔ TurnsOff f (f.drawRows x y sprite).2 := by
  rw [drawRows_hit_iff]
  refine exists_congr fun column => and_congr_right fun hcolumn => ?_
  refine exists_congr fun row => and_congr_right fun hrow => ?_
  refine and_congr_right fun hlit => ?_
  rw [pixel_drawRows _ _ _ _ hcolumn hrow, hlit, Bool.true_xor, Bool.not_eq_false']

end Chip8.FrameBuffer
