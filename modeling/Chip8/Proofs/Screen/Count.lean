import Chip8.Proofs.Screen.Strokes
import Mathlib.Algebra.BigOperators.Fin
import Mathlib.Algebra.BigOperators.Group.Finset.Piecewise
import Mathlib.Algebra.BigOperators.Group.Finset.Sigma

namespace Chip8.FrameBuffer

/-- On how many pixels of the screen something is the case. -/
def countPixels (p : Nat → Nat → Bool) : Nat :=
  ((Finset.range width ×ˢ Finset.range height).filter fun place => p place.1 place.2 = true).card

/-- The set bits of a sprite row that do not fall off the right edge. -/
def visibleBits (left : Nat) (byte : UInt8) : Nat :=
  ((Finset.range 8).filter fun i => left + i < width ∧ byte.toNat.testBit (7 - i) = true).card

variable {p q : Nat → Nat → Bool}

theorem countPixels_eq_sum (p : Nat → Nat → Bool) :
    countPixels p = ∑ y ∈ Finset.range height, ∑ x ∈ Finset.range width, (p x y).toNat := by
  have hbit (b : Bool) : (if b = true then 1 else 0) = b.toNat := by cases b <;> rfl
  simp only [countPixels, Finset.card_filter, Finset.sum_product_right, hbit]

theorem countPixels_congr (h : ∀ x < width, ∀ y < height, p x y = q x y) :
    countPixels p = countPixels q := by
  unfold countPixels
  refine congrArg Finset.card (Finset.filter_congr ?_)
  simp only [Finset.mem_product, Finset.mem_range, Prod.forall, and_imp]
  intro x y hx hy
  rw [h x hx y hy]

theorem countPixels_eq_zero_iff :
    countPixels p = 0 ↔ ∀ x < width, ∀ y < height, p x y = false := by
  rw [countPixels, Finset.card_eq_zero, Finset.filter_eq_empty_iff]
  simp only [Finset.mem_product, Finset.mem_range, Prod.forall, and_imp, Bool.not_eq_true]
  exact forall_congr' fun x => forall_comm

/-- Pixels on which both are the case are counted twice on the right, and not at all on the left. -/
theorem countPixels_xor (p q : Nat → Nat → Bool) :
    countPixels (fun x y => p x y ^^ q x y) + 2 * countPixels (fun x y => p x y && q x y) =
      countPixels p + countPixels q := by
  simp only [countPixels_eq_sum, Finset.mul_sum, ← Finset.sum_add_distrib]
  refine Finset.sum_congr rfl fun y _ => Finset.sum_congr rfl fun x _ => ?_
  cases p x y <;> cases q x y <;> rfl

/-- The bits that are set, one place after the other from the left. -/
theorem toNat_cpop_eq_sum {w : Nat} (v : BitVec w) :
    v.cpop.toNat = ∑ i ∈ Finset.range w, (v.getMsbD i).toNat := by
  have hcounted (n : Nat) :
      v.reverse.cpopNatRec n 0 = ∑ i ∈ Finset.range n, (v.getMsbD i).toNat := by
    induction n with
    | zero => rfl
    | succ n ih =>
      rw [BitVec.cpopNatRec_succ, BitVec.cpopNatRec_eq, ih, Finset.sum_range_succ,
        BitVec.getLsbD_reverse, Nat.zero_add]
  rw [← BitVec.cpop_reverse, BitVec.toNat_cpop, hcounted]

theorem lit_eq_countPixels (f : FrameBuffer) : f.lit = countPixels f.pixel := by
  have hrows : f.rows.toList = List.ofFn fun y : Fin 32 => f.rows[y.val] := by
    rw [← Vector.toList_ofFn, Vector.ofFn_getElem]
  have hlit : f.lit = (f.rows.toList.map fun row => row.cpop.toNat).sum := by
    rw [lit, ← Vector.foldl_toList, List.sum_eq_foldl, List.foldl_map]
  rw [hlit, hrows, List.map_ofFn, List.sum_ofFn, countPixels_eq_sum, Finset.sum_range]
  refine Finset.sum_congr rfl fun y _ => ?_
  have hy : y.val < 32 := y.isLt
  simp only [Function.comp_apply, toNat_cpop_eq_sum, pixel, dif_pos hy]
  rfl

theorem count_true_map {α : Type} (g : α → Bool) (xs : List α) :
    (xs.map g).count true = (xs.map fun x => (g x).toNat).sum := by
  induction xs with
  | nil => rfl
  | cons x xs ih =>
    rw [List.map_cons, List.count_cons, ih, List.map_cons, List.sum_cons, Nat.add_comm]
    cases g x <;> rfl

theorem count_pixels_eq_countPixels (f : FrameBuffer) :
    f.pixels.count true = countPixels f.pixel := by
  rw [pixels, List.count_flatMap, countPixels_eq_sum]
  exact congrArg List.sum (List.map_congr_left fun y _ => count_true_map _ _)

theorem isBlank_iff (f : FrameBuffer) :
    f.isBlank = true ↔ ∀ x < width, ∀ y < height, f.pixel x y = false := by
  simp only [isBlank, Vector.all_eq_true, beq_iff_eq]
  constructor
  · intro hrows x _ y hy
    have hy : y < 32 := hy
    rw [pixel, dif_pos hy, hrows y hy]
    exact BitVec.getMsbD_zero
  · intro hpixels y hy
    apply Classical.byContradiction
    intro hrow
    obtain ⟨x, hx, hset⟩ := (ne_zero_iff_exists_getMsbD _).mp hrow
    have hdark := hpixels x hx y hy
    rw [pixel, dif_pos hy, hset] at hdark
    cases hdark

/-- A sprite row lies over as many pixels as it has bits that stay on the screen. -/
theorem countPixels_covers (s : Stroke) :
    countPixels s.covers = visibleBits (origin width s.x) s.byte := by
  have htop : origin height s.y < height := origin_lt (by decide) s.y
  generalize hleft : origin width s.x = left
  unfold countPixels visibleBits
  apply Finset.card_nbij' (fun place => place.1 - left) fun i => (left + i, origin height s.y)
  all_goals
    simp only [Set.MapsTo, Set.LeftInvOn, Set.RightInvOn, Finset.coe_filter, Finset.mem_product,
      Finset.mem_range, Set.mem_ofPred_eq, Prod.forall, Prod.mk.injEq, Stroke.covers_eq, hleft,
      rowCovers, Bool.and_eq_true, decide_eq_true_eq]
  · rintro x y ⟨⟨hx, -⟩, -, ⟨hfrom, hto⟩, hbit⟩
    refine ⟨by omega, ?_, hbit⟩
    rwa [Nat.add_sub_cancel' hfrom]
  · rintro i ⟨hi, hx, hbit⟩
    refine ⟨⟨hx, htop⟩, trivial, ⟨Nat.le_add_right left i, by omega⟩, ?_⟩
    rwa [Nat.add_sub_cancel_left]
  · rintro x y ⟨-, rfl, ⟨hfrom, -⟩, -⟩
    exact ⟨Nat.add_sub_cancel' hfrom, rfl⟩
  · intro i _
    exact Nat.add_sub_cancel_left left i

theorem stroke_hit_iff (f : FrameBuffer) (s : Stroke) :
    (f.stroke s).1 = true ↔
      countPixels (fun column row => f.pixel column row && s.covers column row) ≠ 0 := by
  have htop : origin height s.y < height := origin_lt (by decide) s.y
  simp only [stroke, drawByte_hit_iff, Stroke.covers_eq, ne_eq, countPixels_eq_zero_iff, not_forall,
    Bool.not_eq_false, Bool.and_eq_true, decide_eq_true_eq, exists_prop]
  refine exists_congr fun column => and_congr_right fun _ => ?_
  constructor
  · rintro ⟨hlit, hset⟩
    exact ⟨_, htop, hlit, rfl, hset⟩
  · rintro ⟨_, -, hlit, rfl, hset⟩
    exact ⟨hlit, hset⟩

/-- The pixels that a sprite row turns off are those lit pixels that it lies over. -/
theorem countPixels_turnedOff (f : FrameBuffer) (s : Stroke) :
    countPixels (fun column row => f.pixel column row && !(f.stroke s).2.pixel column row) =
      countPixels fun column row => f.pixel column row && s.covers column row := by
  apply countPixels_congr
  intro column hcolumn row _
  rw [pixel_stroke f s hcolumn row]
  cases f.pixel column row <;> simp

theorem lit_stroke (f : FrameBuffer) (s : Stroke) :
    (f.stroke s).2.lit +
        2 * countPixels (fun column row => f.pixel column row && s.covers column row) =
      f.lit + visibleBits (origin width s.x) s.byte := by
  have hdrawn : (f.stroke s).2.lit =
      countPixels fun column row => f.pixel column row ^^ s.covers column row := by
    rw [lit_eq_countPixels]
    exact countPixels_congr fun column hcolumn row _ => pixel_stroke f s hcolumn row
  rw [hdrawn, countPixels_xor, countPixels_covers, ← lit_eq_countPixels]

/-- The number of lit pixels can be had from the rows and from the list of all pixels, and it is
zero if and only if the screen is blank. A sprite row changes it by its bits on the screen, less two
for each pixel that it turns off, and reports whether there is one. -/
theorem counts_agree_with_pixels (f : FrameBuffer) :
    f.lit = countPixels f.pixel ∧ f.lit = f.pixels.count true ∧ (f.isBlank = true ↔ f.lit = 0) ∧
      ∀ x y byte,
        let drawn := f.drawByte x y byte
        let turnedOff := countPixels fun column row =>
          f.pixel column row && !drawn.2.pixel column row
        (drawn.2.lit : Int) = f.lit + visibleBits (origin width x) byte - 2 * turnedOff ∧
          (drawn.1 = true ↔ turnedOff ≠ 0) := by
  have hlit := f.lit_eq_countPixels
  refine ⟨hlit, hlit.trans f.count_pixels_eq_countPixels.symm, ?_, ?_⟩
  · rw [hlit, countPixels_eq_zero_iff, isBlank_iff]
  · intro x y byte drawn turnedOff
    have hoff : turnedOff = _ := f.countPixels_turnedOff ⟨x, y, byte⟩
    have hchange : drawn.2.lit + 2 * turnedOff = f.lit + visibleBits (origin width x) byte := by
      rw [hoff]
      exact f.lit_stroke ⟨x, y, byte⟩
    refine ⟨by omega, ?_⟩
    rw [hoff]
    exact f.stroke_hit_iff ⟨x, y, byte⟩

/-- Two of the four bits are on the screen, and both meet a lit pixel. -/
example :
    let f := (blank.drawByte 60 1 0xFF).2
    f.lit = 4 ∧ visibleBits 62 0xF0 = 2 ∧ (f.drawByte 62 1 0xF0).1 = true ∧
      (f.drawByte 62 1 0xF0).2.lit = 2 := by
  decide +kernel

end Chip8.FrameBuffer
