import Mathlib
import Chip8.Pacer

namespace Chip8.Pacer

/-- The cycles of the frame with a number. The last frame of a second has what is left over. -/
def share (hz fps k : Nat) : Nat := hz / fps + if k % fps + 1 = fps then hz % fps else 0

/-- The cycles of all frames before the one with a number: those of the full seconds and those of
the second that has begun. -/
def total (hz fps k : Nat) : Nat := k / fps * hz + k % fps * (hz / fps)

theorem div_le_share (hz fps k : Nat) : hz / fps ≤ share hz fps k := Nat.le_add_right _ _

theorem share_le (hz fps k : Nat) : share hz fps k ≤ hz / fps + hz % fps := by
  unfold share
  split
  · exact Nat.le_refl _
  · exact Nat.le_add_right _ _

theorem total_zero (hz fps : Nat) : total hz fps 0 = 0 := by
  simp [total]

theorem total_succ (hz k : Nat) {fps : Nat} (hfps : 0 < fps) :
    total hz fps (k + 1) = total hz fps k + share hz fps k := by
  obtain ⟨q, r, hr, rfl⟩ : ∃ q r, r < fps ∧ k = fps * q + r :=
    ⟨k / fps, k % fps, Nat.mod_lt k hfps, (Nat.div_add_mod k fps).symm⟩
  have hdiv : (fps * q + r) / fps = q := by
    rw [Nat.mul_add_div hfps, Nat.div_eq_of_lt hr, Nat.add_zero]
  have hmod : (fps * q + r) % fps = r := by
    rw [Nat.mul_add_mod, Nat.mod_eq_of_lt hr]
  unfold total share
  rw [hdiv, hmod, Nat.add_assoc, Nat.mul_add_div hfps, Nat.mul_add_mod]
  by_cases hlast : r + 1 = fps
  · -- A full second: the even shares of its frames, and what they leave over.
    have hsecond : r * (hz / fps) + (hz / fps + hz % fps) = hz := by
      rw [← Nat.add_assoc, ← Nat.succ_mul, Nat.succ_eq_add_one, hlast]
      exact Nat.div_add_mod hz fps
    rw [if_pos hlast, Nat.add_assoc, hsecond, hlast, Nat.div_self hfps, Nat.mod_self, Nat.zero_mul,
      Nat.add_zero, Nat.succ_mul]
  · have hlt : r + 1 < fps := Nat.lt_of_le_of_ne hr hlast
    rw [if_neg hlast, Nat.div_eq_of_lt hlt, Nat.mod_eq_of_lt hlt, Nat.add_zero, Nat.succ_mul,
      Nat.add_zero, Nat.add_assoc]

/-- A second of frames later the count is up by the rate. -/
theorem total_add_fps (hz k : Nat) {fps : Nat} (hfps : 0 < fps) :
    total hz fps (k + fps) = total hz fps k + hz := by
  unfold total
  rw [Nat.add_div_right k hfps, Nat.add_mod_right, Nat.succ_mul, Nat.add_right_comm]

theorem sum_share (hz k n : Nat) {fps : Nat} (hfps : 0 < fps) :
    ((List.range' k n).map (share hz fps)).sum + total hz fps k = total hz fps (k + n) := by
  induction n with
  | zero => simp
  | succ n ih =>
    rw [List.range'_concat, List.map_append, List.sum_append, Nat.one_mul, List.map_singleton,
      List.sum_singleton, Nat.add_right_comm, ih, ← Nat.add_assoc, total_succ hz (k + n) hfps]

/-- A second may begin at any frame. -/
theorem sum_share_second (hz k : Nat) {fps : Nat} (hfps : 0 < fps) :
    ((List.range' k fps).map (share hz fps)).sum = hz := by
  have hsum := sum_share hz k fps hfps
  rw [total_add_fps hz k hfps, Nat.add_comm] at hsum
  exact Nat.add_left_cancel hsum

/-- Wherever frames begin, they have the cycles of as many from the start of a second, and what is
left over once more if they come to the end of one more second. -/
theorem total_add (hz k n : Nat) {fps : Nat} (hfps : 0 < fps) :
    total hz fps (k + n) = total hz fps k + total hz fps n +
      if fps ≤ k % fps + n % fps then hz % fps else 0 := by
  unfold total
  rw [Nat.add_div hfps]
  split
  · rename_i hle
    have hmod := Nat.add_mod_add_of_le_add_mod hle
    have hshares : (k + n) % fps * (hz / fps) + fps * (hz / fps) =
        k % fps * (hz / fps) + n % fps * (hz / fps) := by
      rw [← Nat.add_mul, hmod, Nat.add_mul]
    have hsecond := Nat.div_add_mod hz fps
    rw [Nat.add_mul, Nat.add_mul, Nat.one_mul]
    omega
  · rename_i hlt
    rw [Nat.add_mod_of_add_mod_lt (Nat.lt_of_not_le hlt)]
    ring

theorem total_mono (hz : Nat) {fps : Nat} (hfps : 0 < fps) : Monotone (total hz fps) := by
  refine monotone_nat_of_le_succ fun k => ?_
  rw [total_succ hz k hfps]
  exact Nat.le_add_right _ _

/-- The most cycles that so many frames on end can have: the last frame of a second is among them as
often as it can be. -/
def mostCycles (hz fps n : Nat) : Nat := total hz fps n + if n % fps = 0 then 0 else hz % fps

theorem total_add_le (hz k n : Nat) {fps : Nat} (hfps : 0 < fps) :
    total hz fps (k + n) ≤ total hz fps k + mostCycles hz fps n := by
  rw [total_add hz k n hfps, Nat.add_assoc]
  refine Nat.add_le_add_left (Nat.add_le_add_left ?_ _) _
  by_cases hn : n % fps = 0
  · have hlt : ¬ fps ≤ k % fps + n % fps := by
      rw [hn, Nat.add_zero]
      exact Nat.not_le.mpr (Nat.mod_lt k hfps)
    rw [if_neg hlt]
    exact Nat.zero_le _
  · rw [if_neg hn]
    split
    · exact Nat.le_refl _
    · exact Nat.zero_le _

/-- Frames that end with a second have the most. -/
theorem total_add_of_dvd (hz : Nat) {k n fps : Nat} (hfps : 0 < fps) (h : fps ∣ k + n) :
    total hz fps (k + n) = total hz fps k + mostCycles hz fps n := by
  have hdvd : fps ∣ k % fps + n % fps := by
    rw [Nat.dvd_iff_mod_eq_zero] at h ⊢
    rwa [← Nat.add_mod]
  rw [total_add hz k n hfps, Nat.add_assoc, mostCycles]
  congr 2
  by_cases hn : n % fps = 0
  · rw [hn, Nat.add_zero, if_pos rfl, if_neg (Nat.not_le.mpr (Nat.mod_lt k hfps))]
  · have hpos : 0 < k % fps + n % fps := by omega
    rw [if_neg hn, if_pos (Nat.le_of_dvd hpos hdvd)]

/-- None of the numbers that the next frame is worked out from is too large or below zero. -/
structure Exact (p : Pacer) : Prop where
  fps : 1 ≤ p.fps.toNat
  product : (p.hz / p.fps).toNat * (p.fps - 1).toNat < UInt32.size
  rest : (p.hz / p.fps).toNat * (p.fps - 1).toNat ≤ p.hz.toNat
  frame : p.frame.toNat + 1 < UInt32.size

theorem toNat_sub_one {fps : UInt32} (hfps : 0 < fps) : (fps - 1).toNat = fps.toNat - 1 :=
  UInt32.toNat_sub_of_le fps 1 hfps

theorem max_one {fps : UInt32} (hfps : 0 < fps) : max fps 1 = fps := by
  change (if fps ≤ 1 then 1 else fps) = fps
  split
  · rename_i hle
    exact UInt32.le_antisymm hfps hle
  · rfl

theorem product_le (hz : UInt32) {fps : UInt32} (hfps : 0 < fps) :
    (hz / fps).toNat * (fps - 1).toNat ≤ hz.toNat := by
  rw [UInt32.toNat_div, toNat_sub_one hfps]
  calc hz.toNat / fps.toNat * (fps.toNat - 1)
      ≤ hz.toNat / fps.toNat * fps.toNat := Nat.mul_le_mul_left _ (Nat.sub_le _ _)
    _ ≤ hz.toNat := Nat.div_mul_le_self _ _

theorem toNat_cyclesOf (hz frame : UInt32) {fps : UInt32} (hfps : 0 < fps) :
    (cyclesOf hz fps frame).toNat =
      hz.toNat / fps.toNat + if frame.toNat + 1 = fps.toNat then hz.toNat % fps.toNat else 0 := by
  have hpos : 0 < fps.toNat := hfps
  have hlast : frame = fps - 1 ↔ frame.toNat + 1 = fps.toNat := by
    rw [← UInt32.toNat_inj, toNat_sub_one hfps]
    omega
  unfold cyclesOf
  by_cases h : frame.toNat + 1 = fps.toNat
  · have hproduct := product_le hz hfps
    have hlt : (hz / fps).toNat * (fps - 1).toNat < UInt32.size :=
      Nat.lt_of_le_of_lt hproduct hz.toNat_lt
    have hmul : (hz / fps * (fps - 1)).toNat = (hz / fps).toNat * (fps - 1).toNat := by
      rw [UInt32.toNat_mul, Nat.mod_eq_of_lt hlt]
    have hle : hz / fps * (fps - 1) ≤ hz := by
      rw [UInt32.le_iff_toNat_le, hmul]
      exact hproduct
    have hsecond : hz.toNat = hz.toNat / fps.toNat * (fps.toNat - 1) +
        (hz.toNat / fps.toNat + hz.toNat % fps.toNat) := by
      rw [← Nat.add_assoc, ← Nat.mul_succ, Nat.succ_eq_add_one, Nat.sub_add_cancel hpos,
        Nat.div_add_mod']
    rw [if_pos (hlast.mpr h), if_pos h, UInt32.toNat_sub_of_le _ _ hle, hmul, UInt32.toNat_div,
      toNat_sub_one hfps]
    exact Nat.sub_eq_of_eq_add' hsecond
  · rw [if_neg (mt hlast.mp h), if_neg h, UInt32.toNat_div, Nat.add_zero]

/-- What the counters become by a frame that they can hold. -/
theorem Takes.toNat_add {p : Pacer} {cycles : UInt32} (h : p.Takes cycles) :
    (p.windowCycles + cycles).toNat = p.windowCycles.toNat + cycles.toNat ∧
      (p.windowFrames + 1).toNat = p.windowFrames.toNat + 1 := by
  rw [UInt32.toNat_add, UInt32.toNat_add, UInt32.toNat_one]
  exact ⟨Nat.mod_eq_of_lt h.1, Nat.mod_eq_of_lt h.2⟩

/-- A frame before the end of the window goes into it. -/
theorem record_early {p : Pacer} {now : Nat} {cycles : UInt32} (h : p.Takes cycles)
    (hearly : now < p.windowStart + second) :
    p.record now cycles = .ok { p with
      windowCycles := p.windowCycles + cycles
      windowFrames := p.windowFrames + 1 } := by
  have hnot : ¬ second ≤ now - p.windowStart := by
    unfold second at hearly ⊢
    omega
  rw [record, if_pos h]
  exact if_neg hnot

/-- A frame a second or more after its start ends the window. -/
theorem record_late {p : Pacer} {now : Nat} {cycles : UInt32} (h : p.Takes cycles)
    (hlate : p.windowStart + second ≤ now) :
    p.record now cycles = .ok { p with
      measuredHz := p.windowCycles + cycles
      measuredFps := p.windowFrames + 1
      windowCycles := 0
      windowFrames := 0
      windowStart := now } := by
  rw [record, if_pos h]
  exact if_pos (Nat.le_sub_of_add_le' hlate)

theorem record_overflow {p : Pacer} {cycles : UInt32} (h : ¬ p.Takes cycles) (now : Nat) :
    p.record now cycles = .error .overflow := if_neg h

theorem exists_record_iff (p : Pacer) (now : Nat) (cycles : UInt32) :
    (∃ q, p.record now cycles = .ok q) ↔ p.Takes cycles := by
  by_cases h : p.Takes cycles
  · refine iff_of_true ?_ h
    rcases Nat.lt_or_ge now (p.windowStart + second) with hearly | hlate
    · exact ⟨_, record_early h hearly⟩
    · exact ⟨_, record_late h hlate⟩
  · rw [record_overflow h]
    refine iff_of_false ?_ h
    rintro ⟨q, hq⟩
    cases hq

/-- Counting a frame is not what moves the pacer on to the next one. -/
theorem rates_of_record {p q : Pacer} {now : Nat} {cycles : UInt32}
    (h : p.record now cycles = .ok q) : q.hz = p.hz ∧ q.fps = p.fps ∧ q.frame = p.frame := by
  have htakes := (exists_record_iff p now cycles).mp ⟨q, h⟩
  rcases Nat.lt_or_ge now (p.windowStart + second) with hearly | hlate
  · rw [record_early htakes hearly] at h
    cases h
    exact ⟨rfl, rfl, rfl⟩
  · rw [record_late htakes hlate] at h
    cases h
    exact ⟨rfl, rfl, rfl⟩

/-- The pacer of a rate when it comes to the frame with a number. -/
structure AtFrame (hz fps : UInt32) (k : Nat) (p : Pacer) : Prop where
  pos : 0 < fps
  frame : p.frame.toNat = k % fps.toNat
  hz : p.hz = hz
  fps : p.fps = fps

namespace AtFrame

variable {hz fps : UInt32} {k : Nat} {p : Pacer}

theorem start (hz : UInt32) (now : Nat) (hfps : 0 < fps) : (start hz fps now).AtFrame hz fps 0 where
  pos := hfps
  frame := (Nat.zero_mod _).symm
  hz := rfl
  fps := max_one hfps

theorem exact (h : p.AtFrame hz fps k) : p.Exact := by
  obtain ⟨hpos, hframe, rfl, rfl⟩ := h
  have hrest := product_le p.hz hpos
  refine ⟨hpos, Nat.lt_of_le_of_lt hrest p.hz.toNat_lt, hrest, ?_⟩
  have hlt : p.frame.toNat < p.fps.toNat := hframe ▸ Nat.mod_lt k hpos
  exact Nat.lt_of_le_of_lt hlt p.fps.toNat_lt

theorem cycles (h : p.AtFrame hz fps k) : p.nextFrame.1.toNat = share hz.toNat fps.toNat k := by
  obtain ⟨hpos, hframe, rfl, rfl⟩ := h
  rw [nextFrame, toNat_cyclesOf p.hz p.frame hpos, hframe, share]

theorem frameDuration (h : p.AtFrame hz fps k) : p.frameDuration = second / fps.toNat := by
  rw [Pacer.frameDuration, h.fps]

theorem nextFrame (h : p.AtFrame hz fps k) : p.nextFrame.2.AtFrame hz fps (k + 1) := by
  have hsucc := h.exact.frame
  obtain ⟨hpos, hframe, rfl, rfl⟩ := h
  refine ⟨hpos, ?_, rfl, rfl⟩
  change ((p.frame + 1) % p.fps).toNat = (k + 1) % p.fps.toNat
  rw [UInt32.toNat_mod, UInt32.toNat_add, UInt32.toNat_one, Nat.mod_eq_of_lt hsucc, hframe,
    Nat.mod_add_mod]

/-- The measured rates do not bear on what is handed out. -/
theorem record {q : Pacer} {now : Nat} {cycles : UInt32} (h : p.AtFrame hz fps k)
    (hq : p.record now cycles = .ok q) : q.AtFrame hz fps k := by
  obtain ⟨hhz, hfps, hframe⟩ := rates_of_record hq
  exact ⟨h.pos, hframe ▸ h.frame, hhz.trans h.hz, hfps.trans h.fps⟩

end AtFrame

/-- The pacer after so many frames. -/
def afterFrames (p : Pacer) : Nat → Pacer
  | 0 => p
  | n + 1 => (p.afterFrames n).nextFrame.2

/-- What the pacer hands out when it has done so for a number of frames. -/
def cyclesAt (p : Pacer) (n : Nat) : Nat := (p.afterFrames n).nextFrame.1.toNat

theorem atFrame_afterFrames {hz fps : UInt32} {k : Nat} {p : Pacer} (h : p.AtFrame hz fps k)
    (n : Nat) : (p.afterFrames n).AtFrame hz fps (k + n) := by
  induction n with
  | zero => exact h
  | succ n ih => exact ih.nextFrame

theorem cyclesAt_eq_share {hz fps : UInt32} {p : Pacer} (h : p.AtFrame hz fps 0) (n : Nat) :
    p.cyclesAt n = share hz.toNat fps.toNat n := by
  have hn := (atFrame_afterFrames h n).cycles
  rwa [Nat.zero_add] at hn

end Chip8.Pacer
