import Mathlib
import Chip8.Proofs.Pacer.Windows
import Chip8.Proofs.Session.Pace

namespace Chip8

namespace Pacer

/-- The most frames in a window: those that come within a second of its start, where the first may
be due at once and the others are a duration apart, and the one that ends it. -/
def windowLimit (duration : Nat) : Nat := (second - 1) / duration + 2

/-- Frames last at all, and the most cycles that a window can have fit the counter. -/
def Sustainable (hz fps : Nat) : Prop :=
  fps ≤ second ∧ mostCycles hz fps (windowLimit (second / fps)) < UInt32.size

instance (hz fps : Nat) : Decidable (Sustainable hz fps) := inferInstanceAs (Decidable (_ ∧ _))

/-- What a window can hold. -/
structure Bounded (hz fps : Nat) (w : List Call) : Prop where
  length : w.length ≤ windowLimit (second / fps)
  cycles : cyclesIn w ≤ mostCycles hz fps (windowLimit (second / fps))

theorem windowLimit_lt (duration : Nat) : windowLimit duration < UInt32.size :=
  calc (second - 1) / duration + 2
      ≤ (second - 1) + 2 := Nat.add_le_add_right (Nat.div_le_self _ _) 2
    _ < UInt32.size := by decide

theorem Bounded.fits_iff {hz fps : Nat} {w : List Call} (h : Bounded hz fps w) :
    Fits w ↔ cyclesIn w < UInt32.size :=
  and_iff_left (Nat.lt_of_le_of_lt h.length (windowLimit_lt _))

/-- The pacer, whatever the number of its next frame. -/
def unnumbered (p : Pacer) : Pacer := { p with frame := 0 }

theorem record_unnumbered (p : Pacer) (now : Nat) (cycles : UInt32) :
    p.unnumbered.record now cycles = (p.record now cycles).map unnumbered := by
  by_cases htakes : p.Takes cycles
  · rcases Nat.lt_or_ge now (p.windowStart + second) with hearly | hlate
    · rw [record_early htakes hearly]
      exact record_early (p := p.unnumbered) htakes hearly
    · rw [record_late htakes hlate]
      exact record_late (p := p.unnumbered) htakes hlate
  · rw [record_overflow htakes]
    exact record_overflow (p := p.unnumbered) htakes now

theorem recordAll_unnumbered (p : Pacer) (calls : List Call) :
    p.unnumbered.recordAll calls = (p.recordAll calls).map unnumbered := by
  induction calls generalizing p with
  | nil => rfl
  | cons c calls ih =>
    rw [recordAll_cons, recordAll_cons, record_unnumbered]
    cases p.record c.now c.cycles with
    | error e => rfl
    | ok q => exact ih q

/-- The number of the next frame does not bear on what is counted. -/
theorem recordAll_congr {p q : Pacer} (h : p.unnumbered = q.unnumbered) (calls : List Call) :
    (p.recordAll calls).map unnumbered = (q.recordAll calls).map unnumbered := by
  rw [← recordAll_unnumbered, h, recordAll_unnumbered]

end Pacer

namespace Session

open Pacer (Call Divided Fits Bounded Sustainable cyclesIn)

namespace Frame

def call (f : Frame) : Call := ⟨f.now, f.recorded⟩

theorem recordAll_call (p : Pacer) (f : Frame) (calls : List Call) :
    p.recordAll (f.call :: calls) = p.record f.now f.recorded >>= fun q => q.recordAll calls := rfl

theorem recorded_le (f : Frame) : f.recorded.toNat ≤ f.cycles := by
  unfold recorded
  split
  · exact Nat.zero_le _
  · exact Nat.le_refl _

/-- A frame that can be counted leaves the pacer as its call does. -/
theorem record_of_after {f : Frame} {s : Session} (h : f.after = .ok s) :
    ∃ q, f.before.pacer.record f.now f.recorded = .ok q ∧ q.unnumbered = s.pacer.unnumbered := by
  have hcounted : f.before.pacer.nextFrame.2.record f.now f.recorded = .ok s.pacer :=
    (after_eq_ok h).2.1
  have hsame := Pacer.record_unnumbered f.before.pacer.nextFrame.2 f.now f.recorded
  rw [hcounted] at hsame
  have hcall := Pacer.record_unnumbered f.before.pacer f.now f.recorded
  obtain ⟨q, hq⟩ := (Pacer.exists_record_iff f.before.pacer f.now f.recorded).mpr (after_eq_ok h).1
  rw [hq] at hcall
  exact ⟨q, hq, Except.ok.inj (hcall.symm.trans hsame)⟩

end Frame

theorem cyclesIn_calls_le (fs : List Frame) :
    cyclesIn (fs.map Frame.call) ≤ (fs.map Frame.cycles).sum := by
  induction fs with
  | nil => exact Nat.le_refl _
  | cons f fs ih => exact Nat.add_le_add f.recorded_le ih

/-- A session counts its frames as they are run, and fails where they cannot be counted. -/
theorem pacer_run (s : Session) (events : List Event) :
    (s.run events).map (fun s' => s'.pacer.unnumbered) =
      (s.pacer.recordAll ((s.frames events).map Frame.call)).map Pacer.unnumbered := by
  induction s, events using run.induct with
  | case1 s => rfl
  | case2 s event rest hclosed =>
    rw [(run_closed hclosed _).2, frames_closed hclosed]
    rfl
  | case3 s event rest hopen reaction s' hok ih =>
    rw [(run_ok hopen hok _).2, frames_ok hopen hok, ih]
    rcases handle_eq_ok hok with ⟨f, hframe, hafter, -⟩ | ⟨hframe, -, hpacer, -⟩
    · obtain ⟨-, -, hpacer, -⟩ := before_of_frame? hframe
      obtain ⟨q, hq, hsame⟩ := Frame.record_of_after hafter
      rw [hframe, Option.toList_some, List.singleton_append, List.map_cons, Frame.recordAll_call,
        ← hpacer, hq]
      exact Pacer.recordAll_congr hsame.symm _
    · rw [hframe, hpacer]
      rfl
  | case4 s event rest hopen e herror =>
    obtain ⟨f, hframe, hnot⟩ : ∃ f, s.frame? event = some f ∧ ¬ f.Fits := by
      by_contra hall
      push Not at hall
      obtain ⟨answer, hok⟩ := (exists_handle_iff s event).mpr hall
      cases herror.symm.trans hok
    obtain ⟨-, -, hpacer, -⟩ := before_of_frame? hframe
    rw [(run_error hopen herror _).2, frames_error hopen herror, hframe, Option.toList_some,
      List.map_singleton, Frame.recordAll_call, ← hpacer, Pacer.record_overflow hnot]
    rfl

namespace Succession

variable {deadline : Nat} {pacer : Pacer}

theorem of_cons {f : Frame} {fs : List Frame} (h : Succession deadline pacer (f :: fs)) :
    f.before.deadline = deadline ∧ f.before.pacer = pacer ∧ f.before.deadline ≤ f.now ∧
      (fs = [] ∨ ∃ s, f.after = .ok s ∧ Succession s.deadline s.pacer fs) := by
  cases h with
  | last _ due => exact ⟨rfl, rfl, due, .inl rfl⟩
  | cons _ _ due after rest => exact ⟨rfl, rfl, due, .inr ⟨_, after, rest⟩⟩

theorem front {xs ys : List Frame} (h : Succession deadline pacer (xs ++ ys)) :
    Succession deadline pacer xs := by
  induction xs generalizing deadline pacer with
  | nil => exact .nil _ _
  | cons f xs ih =>
    obtain ⟨rfl, rfl, hdue, hnil | ⟨s, hafter, hrest⟩⟩ := h.of_cons
    · rw [(List.append_eq_nil_iff.mp hnil).1]
      exact .last f hdue
    · exact .cons f xs hdue hafter (ih hrest)

variable {hz fps : UInt32} {k : Nat} {start : Nat}

theorem later {xs ys : List Frame} {g : Frame} (h : Succession deadline pacer (xs ++ g :: ys))
    (hp : pacer.AtFrame hz fps k) :
    ∃ deadline' pacer' n, Succession deadline' pacer' ys ∧ pacer'.AtFrame hz fps n ∧
      g.now ≤ deadline' := by
  induction xs generalizing deadline pacer k with
  | nil =>
    obtain ⟨rfl, rfl, -, rfl | ⟨s, hafter, hrest⟩⟩ := h.of_cons
    · exact ⟨g.now, _, k, .nil _ _, hp, Nat.le_refl _⟩
    · exact ⟨_, _, k + 1, hrest, Frame.atFrame_after hp hafter, (Frame.le_deadline_after hafter).1⟩
  | cons f xs ih =>
    obtain ⟨rfl, rfl, -, hnil | ⟨s, hafter, hrest⟩⟩ := h.of_cons
    · simp at hnil
    · exact ih hrest (Frame.atFrame_after hp hafter)

/-- Frames that come within a second of a start, but for the last. -/
theorem length_le_windowLimit {fs : List Frame} (h : Succession deadline pacer fs)
    (hduration : 0 < pacer.frameDuration) (hstart : start ≤ deadline)
    (early : ∀ f ∈ fs.dropLast, f.now < start + second) :
    fs.length ≤ Pacer.windowLimit pacer.frameDuration := by
  rcases Nat.lt_or_ge fs.length 2 with hshort | hlong
  · exact Nat.le_trans (Nat.le_of_lt hshort) (Nat.le_add_left 2 _)
  · -- The last frame but one is early, and there is a duration for each frame before it.
    obtain ⟨n, hn⟩ : ∃ n, fs.length = n + 2 := Nat.exists_eq_add_of_le' hlong
    have hlt : n < fs.dropLast.length := by
      rw [List.length_dropLast, hn]
      exact Nat.lt_succ_self n
    have hnow := early _ (List.getElem_mem hlt)
    have hdue := h.due_le (k := n) (List.getElem?_eq_getElem (by omega))
    rw [List.getElem_dropLast] at hnow
    have hmul : n * pacer.frameDuration ≤ second - 1 := by omega
    rw [hn]
    exact Nat.add_le_add_right ((Nat.le_div_iff_mul_le hduration).mpr hmul) 2

/-- As many frames count no more cycles than the most that these can have. -/
theorem cyclesIn_le {fs : List Frame} (h : Succession deadline pacer fs)
    (hp : pacer.AtFrame hz fps k) {n : Nat} (hlength : fs.length ≤ n) :
    cyclesIn (fs.map Frame.call) ≤ Pacer.mostCycles hz.toNat fps.toNat n := by
  have hpos : 0 < fps.toNat := hp.pos
  have hsum := Pacer.sum_share hz.toNat k fs.length hpos
  rw [← h.cycles hp] at hsum
  have hmono := Pacer.total_mono hz.toNat hpos (Nat.add_le_add_left hlength k)
  have hmost := Pacer.total_add_le hz.toNat k n hpos
  have hcalls := cyclesIn_calls_le fs
  omega

theorem bounded {fs : List Frame} (h : Succession deadline pacer fs)
    (hp : pacer.AtFrame hz fps k) (hduration : 0 < second / fps.toNat) (hstart : start ≤ deadline)
    (early : ∀ f ∈ fs.dropLast, f.now < start + second) :
    Bounded hz.toNat fps.toNat (fs.map Frame.call) := by
  rw [← hp.frameDuration] at hduration
  have hlength := h.length_le_windowLimit hduration hstart early
  rw [hp.frameDuration] at hlength
  exact ⟨by rwa [List.length_map], h.cyclesIn_le hp hlength⟩

theorem windows_bounded {fs : List Frame} (h : Succession deadline pacer fs)
    (hp : pacer.AtFrame hz fps k) (hduration : 0 < second / fps.toNat) (hstart : start ≤ deadline)
    {full : List (List Call)} {rest : List Call}
    (hwindows : Divided start (fs.map Frame.call) full rest) :
    ∀ w ∈ full ++ [rest], Bounded hz.toNat fps.toNat w := by
  generalize hcalls : fs.map Frame.call = calls at hwindows
  induction hwindows generalizing fs deadline pacer k with
  | @ongoing start rest early =>
    subst hcalls
    intro w hw
    cases List.mem_singleton.mp hw
    refine h.bounded hp hduration hstart fun f hf => ?_
    exact early f.call (List.mem_map_of_mem (List.dropLast_subset _ hf))
  | @ended start front last calls full rest early late next ih =>
    obtain ⟨xs, ys, rfl, rfl, hys⟩ := List.map_eq_append_iff.mp hcalls
    obtain ⟨g, ys, rfl, rfl, rfl⟩ := List.map_eq_cons_iff.mp hys
    intro w hw
    rcases List.mem_cons.mp hw with rfl | hw
    · rw [← List.singleton_append, ← List.append_assoc] at h
      rw [← List.map_singleton, ← List.map_append]
      refine h.front.bounded hp hduration hstart fun f hf => ?_
      rw [List.dropLast_concat] at hf
      exact early f.call (List.mem_map_of_mem hf)
    · obtain ⟨deadline', pacer', n, hrest, hn, hstart'⟩ := h.later hp
      exact ih hrest hn hstart' rfl w hw

end Succession

/-- A batch of input without keys. -/
def beat (t : Nat) : Event := .batch t .asLaidOut ⟨[], [], false⟩

/-- A session that goes on and is not paused, as far as its next beats depend on it. -/
structure Counting (hz fps : UInt32) (k due since cycles : Nat) (s : Session) : Prop where
  goesOn : s.waiting ≠ .closed
  unpaused : s.interpreter.paused = false
  atFrame : s.pacer.AtFrame hz fps k
  deadline : s.deadline = due
  windowStart : s.pacer.windowStart = since
  windowCycles : s.pacer.windowCycles.toNat = cycles

namespace Counting

variable {hz fps : UInt32} {k due since cycles t : Nat} {s s' : Session} {reaction : Reaction}

/-- A beat in time lets a frame run, and all its cycles are counted. -/
theorem frame_beat (h : Counting hz fps k due since cycles s) (hdue : due ≤ t) :
    ∃ f, s.frame? (beat t) = some f ∧ f.now = t ∧ f.before.deadline = due ∧
      f.before.pacer = s.pacer ∧ f.before.interpreter.paused = false ∧
      f.recorded.toNat = Pacer.share hz.toNat fps.toNat k := by
  obtain ⟨f, hframe⟩ : ∃ f, s.frame? (beat t) = some f := by
    rw [← Option.isSome_iff_exists, isSome_frame?_iff]
    exact ⟨t, _, _, rfl, rfl, h.deadline ▸ hdue⟩
  have hnow : f.now = t := by
    obtain ⟨order, input, hevent, -⟩ := frame?_eq_some hframe
    cases hevent
    rfl
  obtain ⟨-, hdeadline, hpacer, hinterpreter⟩ := before_of_frame? hframe
  have hkeys : .togglePause ∉ (beat t).operations :=
    (by decide : .togglePause ∉ Input.operations ⟨[], [], false⟩ .asLaidOut)
  have hpaused : f.before.interpreter.paused = false := by
    rw [hinterpreter, Interpreter.paused_after hkeys, h.unpaused]
  have hatFrame : f.before.pacer.AtFrame hz fps k := hpacer ▸ h.atFrame
  refine ⟨f, hframe, hnow, hdeadline.trans h.deadline, hpacer, hpaused, ?_⟩
  rw [Frame.recorded, hpaused]
  exact hatFrame.cycles

/-- What a beat in time leaves, but for the counters. -/
theorem after_beat (h : Counting hz fps k due since cycles s) (hdue : due ≤ t)
    (hok : s.handle (beat t) = .ok (reaction, s')) :
    cycles + Pacer.share hz.toNat fps.toNat k < UInt32.size ∧
      Counting hz fps (k + 1) (nextDeadline due t (second / fps.toNat)) s'.pacer.windowStart
        s'.pacer.windowCycles.toNat s' ∧
      ∃ recorded : UInt32, recorded.toNat = Pacer.share hz.toNat fps.toNat k ∧
        s.pacer.Takes recorded ∧ s.pacer.nextFrame.2.record t recorded = .ok s'.pacer := by
  obtain ⟨f, hframe, rfl, hdeadline, hpacer, hpaused, hrecorded⟩ := h.frame_beat hdue
  have hafter : f.after = .ok s' := ((handle_frame hframe).1 _ _ hok).1
  obtain ⟨hfits, hcounted, hinterpreter, -, hgoesOn⟩ := Frame.after_eq_ok hafter
  have hatFrame : f.before.pacer.AtFrame hz fps k := hpacer ▸ h.atFrame
  have htakes : s.pacer.Takes f.recorded := hpacer ▸ hfits
  refine ⟨?_, ⟨hgoesOn, ?_, Frame.atFrame_after hatFrame hafter, ?_, rfl, rfl⟩, f.recorded,
    hrecorded, htakes, hpacer ▸ hcounted⟩
  · rw [← hrecorded, ← h.windowCycles]
    exact htakes.1
  · rw [hinterpreter, Interpreter.paused_after (by simp [Frame.operations]), hpaused]
  · rw [Frame.deadline_after hafter, hdeadline, hatFrame.frameDuration]

theorem early (h : Counting hz fps k due since cycles s) (hdue : due ≤ t)
    (ht : t < since + second) (hok : s.handle (beat t) = .ok (reaction, s')) :
    Counting hz fps (k + 1) (nextDeadline due t (second / fps.toNat)) since
      (cycles + Pacer.share hz.toNat fps.toNat k) s' := by
  obtain ⟨-, hnext, recorded, hrecorded, htakes, hrecord⟩ := h.after_beat hdue hok
  rw [← h.windowStart] at ht
  have hpacer := Except.ok.inj
    ((Pacer.record_early (p := s.pacer.nextFrame.2) htakes ht).symm.trans hrecord)
  have hsum := htakes.toNat_add.1
  rw [hrecorded, h.windowCycles] at hsum
  refine { hnext with windowStart := ?_, windowCycles := ?_ }
  · rw [← hpacer]
    exact h.windowStart
  · rw [← hpacer]
    exact hsum

theorem late (h : Counting hz fps k due since cycles s) (hdue : due ≤ t)
    (ht : since + second ≤ t) (hok : s.handle (beat t) = .ok (reaction, s')) :
    Counting hz fps (k + 1) (nextDeadline due t (second / fps.toNat)) t 0 s' := by
  obtain ⟨-, hnext, recorded, -, htakes, hrecord⟩ := h.after_beat hdue hok
  rw [← h.windowStart] at ht
  have hpacer := Except.ok.inj
    ((Pacer.record_late (p := s.pacer.nextFrame.2) htakes ht).symm.trans hrecord)
  refine { hnext with windowStart := ?_, windowCycles := ?_ }
  · rw [← hpacer]
  · rw [← hpacer]
    rfl

end Counting

theorem counting_start {i : Interpreter} {o : RunOptions} (hfps : 0 < o.fps)
    (hpaused : i.paused = false) (now : Nat) :
    Counting o.hz o.fps 0 now now 0 (start i o now) :=
  ⟨nofun, hpaused, .start o.hz now hfps, rfl, rfl, rfl⟩

/-- Beats of a clock that does not go backward lead the session there: to the frame with a number,
when that is due, and to a window with its start and its cycles so far. -/
def LedTo (s : Session) (now : Nat) (hz fps : UInt32) (k due since cycles : Nat) : Prop :=
  ∃ instants s', (now :: instants).Pairwise (· ≤ ·) ∧ (∀ t ∈ now :: instants, t ≤ due) ∧
    s.run (instants.map beat) = .ok s' ∧ Counting hz fps k due since cycles s'

/-- The session survives all its beats. -/
def Holds (s : Session) (now : Nat) : Prop :=
  ∀ instants, (now :: instants).Pairwise (· ≤ ·) → ∃ s', s.run (instants.map beat) = .ok s'

theorem nextDeadline_self (due duration : Nat) : nextDeadline due due duration = due + duration :=
  if_neg (by omega)

/-- A frame that comes one duration late puts the next one off to its own time. -/
theorem nextDeadline_add (due duration : Nat) :
    nextDeadline due (due + duration) duration = due + duration :=
  if_neg (by omega)

theorem le_nextDeadline (due t duration : Nat) : t ≤ nextDeadline due t duration := by
  unfold nextDeadline
  split <;> omega

namespace LedTo

variable {s : Session} {now : Nat} {hz fps : UInt32} {k due since cycles t : Nat}

theorem sorted {instants : List Nat} (hsorted : (now :: instants).Pairwise (· ≤ ·))
    (hle : ∀ u ∈ now :: instants, u ≤ due) (hdue : due ≤ t) :
    (now :: (instants ++ [t])).Pairwise (· ≤ ·) ∧ ∀ u ∈ now :: (instants ++ [t]), u ≤ t := by
  have hlast : ∀ u ∈ now :: instants, u ≤ t := fun u hu => Nat.le_trans (hle u hu) hdue
  rw [← List.cons_append]
  refine ⟨List.pairwise_append.mpr ⟨hsorted, List.pairwise_singleton _ _, ?_⟩, ?_⟩
  · intro u hu v hv
    exact (List.mem_singleton.mp hv) ▸ hlast u hu
  · intro u hu
    rcases List.mem_append.mp hu with hu | hu
    · exact hlast u hu
    · exact Nat.le_of_eq (List.mem_singleton.mp hu)

/-- The session survives its next beat too. -/
theorem next (h : LedTo s now hz fps k due since cycles) (hholds : Holds s now) (hdue : due ≤ t) :
    ∃ s' reaction s'', Counting hz fps k due since cycles s' ∧
      s'.handle (beat t) = .ok (reaction, s'') ∧ ∀ k' since' cycles',
        Counting hz fps k' (nextDeadline due t (second / fps.toNat)) since' cycles' s'' →
          LedTo s now hz fps k' (nextDeadline due t (second / fps.toNat)) since' cycles' := by
  obtain ⟨instants, s', hsorted, hle, hrun, hcounting⟩ := h
  obtain ⟨hsorted', hle'⟩ := sorted hsorted hle hdue
  have happend : s.run ((instants ++ [t]).map beat) = s'.run [beat t] := by
    rw [List.map_append, List.map_singleton, run_append, hrun]
    rfl
  obtain ⟨s'', hs''⟩ := hholds _ hsorted'
  cases hhandle : s'.handle (beat t) with
  | error e =>
    rw [happend, (run_error hcounting.goesOn hhandle []).2] at hs''
    cases hs''
  | ok answer =>
    obtain ⟨reaction, s₁⟩ := answer
    rw [(run_ok hcounting.goesOn hhandle []).2] at happend
    have hdeadline : ∀ u ∈ now :: (instants ++ [t]), u ≤ nextDeadline due t (second / fps.toNat) :=
      fun u hu => Nat.le_trans (hle' u hu) (le_nextDeadline _ _ _)
    refine ⟨s', reaction, s₁, hcounting, hhandle, fun k' since' cycles' hnext => ?_⟩
    exact ⟨instants ++ [t], s₁, hsorted', hdeadline, happend, hnext⟩

theorem sum_lt (h : LedTo s now hz fps k due since cycles) (hholds : Holds s now) :
    cycles + Pacer.share hz.toNat fps.toNat k < UInt32.size := by
  obtain ⟨s', reaction, s'', hcounting, hok, -⟩ := h.next hholds (Nat.le_refl due)
  exact (hcounting.after_beat (Nat.le_refl due) hok).1

theorem cycles_lt (h : LedTo s now hz fps k due since cycles) : cycles < UInt32.size := by
  obtain ⟨instants, s', -, -, -, hcounting⟩ := h
  rw [← hcounting.windowCycles]
  exact UInt32.toNat_lt _

theorem early (h : LedTo s now hz fps k due since cycles) (hholds : Holds s now) (hdue : due ≤ t)
    (ht : t < since + second) :
    LedTo s now hz fps (k + 1) (nextDeadline due t (second / fps.toNat)) since
      (cycles + Pacer.share hz.toNat fps.toNat k) := by
  obtain ⟨s', reaction, s'', hcounting, hok, hled⟩ := h.next hholds hdue
  exact hled _ _ _ (hcounting.early hdue ht hok)

theorem late (h : LedTo s now hz fps k due since cycles) (hholds : Holds s now) (hdue : due ≤ t)
    (ht : since + second ≤ t) :
    LedTo s now hz fps (k + 1) (nextDeadline due t (second / fps.toNat)) t 0 := by
  obtain ⟨s', reaction, s'', hcounting, hok, hled⟩ := h.next hholds hdue
  exact hled _ _ _ (hcounting.late hdue ht hok)

/-- A beat that comes so late that frames are dropped. -/
theorem very_late (h : LedTo s now hz fps k due since cycles) (hholds : Holds s now) :
    ∃ since', LedTo s now hz fps (k + 1) (since' + second / fps.toNat) since' 0 := by
  have hdropped : due + second / fps.toNat <
      max (since + second) (due + second / fps.toNat + 1) :=
    Nat.lt_of_succ_le (Nat.le_max_right _ _)
  have hdue := Nat.le_of_lt (Nat.lt_of_add_right_lt hdropped)
  have hlate := h.late hholds hdue (Nat.le_max_left _ _)
  rw [nextDeadline, if_pos hdropped] at hlate
  exact ⟨_, hlate⟩

/-- Beats in time, from a window at whose start a frame is due. -/
theorem on_time (h : LedTo s now hz fps k since since 0) (hholds : Holds s now) (hfps : 0 < fps)
    {n : Nat} (hn : ∀ j < n, j * (second / fps.toNat) < second) :
    ∃ cycles, LedTo s now hz fps (k + n) (since + n * (second / fps.toNat)) since cycles ∧
      cycles + Pacer.total hz.toNat fps.toNat k = Pacer.total hz.toNat fps.toNat (k + n) := by
  induction n with
  | zero => exact ⟨0, by simpa using h, Nat.zero_add _⟩
  | succ n ih =>
    obtain ⟨cycles, hled, htotal⟩ := ih fun j hj => hn j (Nat.lt_succ_of_lt hj)
    have hnext := hled.early hholds (Nat.le_refl _)
      (Nat.add_lt_add_left (hn n (Nat.lt_succ_self n)) since)
    rw [nextDeadline_self, Nat.add_assoc since, ← Nat.succ_mul] at hnext
    refine ⟨_, hnext, ?_⟩
    have hpos : 0 < fps.toNat := hfps
    rw [← Nat.add_assoc k, Pacer.total_succ _ _ hpos, ← htotal, Nat.add_right_comm]

/-- Beats that each come one duration late, while the window goes on. -/
theorem lag (h : LedTo s now hz fps k (since + second / fps.toNat) since 0) (hholds : Holds s now)
    {n : Nat} (hn : ∀ j < n, (j + 2) * (second / fps.toNat) < second) :
    ∃ cycles,
      LedTo s now hz fps (k + n) (since + (n + 1) * (second / fps.toNat)) since cycles := by
  induction n with
  | zero => exact ⟨0, by simpa using h⟩
  | succ n ih =>
    obtain ⟨cycles, hled⟩ := ih fun j hj => hn j (Nat.lt_succ_of_lt hj)
    have hlt : since + (n + 1) * (second / fps.toNat) + second / fps.toNat < since + second := by
      rw [Nat.add_assoc, ← Nat.succ_mul]
      exact Nat.add_lt_add_left (hn n (Nat.lt_succ_self n)) since
    have hnext := hled.early hholds (Nat.le_add_right _ _) hlt
    rw [nextDeadline_add, Nat.add_assoc since, ← Nat.succ_mul] at hnext
    exact ⟨_, hnext⟩

/-- Where one more of them ends the window, the next frame is due at once. -/
theorem lag_to_end (h : LedTo s now hz fps k (since + second / fps.toNat) since 0)
    (hholds : Holds s now) {n : Nat} (hn : ∀ j < n, (j + 2) * (second / fps.toNat) < second)
    (hend : second ≤ (n + 2) * (second / fps.toNat)) :
    ∃ since', LedTo s now hz fps (k + n + 1) since' since' 0 := by
  obtain ⟨cycles, hled⟩ := h.lag hholds hn
  have hge : since + second ≤ since + (n + 1) * (second / fps.toNat) + second / fps.toNat := by
    rw [Nat.add_assoc, ← Nat.succ_mul]
    exact Nat.add_le_add_left hend since
  have hnext := hled.late hholds (Nat.le_add_right _ _) hge
  rw [nextDeadline_add] at hnext
  exact ⟨_, hnext⟩

/-- The full window that begins where a frame is due at once. -/
theorem window_lt (h : LedTo s now hz fps k since since 0) (hholds : Holds s now) (hfps : 0 < fps) :
    Pacer.total hz.toNat fps.toNat (k + Pacer.windowLimit (second / fps.toNat)) <
      Pacer.total hz.toNat fps.toNat k + UInt32.size := by
  have hn : ∀ j < (second - 1) / (second / fps.toNat) + 1, j * (second / fps.toNat) < second := by
    intro j hj
    calc j * (second / fps.toNat)
        ≤ (second - 1) / (second / fps.toNat) * (second / fps.toNat) :=
          Nat.mul_le_mul_right _ (Nat.le_of_lt_succ hj)
      _ ≤ second - 1 := Nat.div_mul_le_self _ _
      _ < second := by decide
  obtain ⟨cycles, hled, htotal⟩ := h.on_time hholds hfps hn
  have hsum := hled.sum_lt hholds
  have hpos : 0 < fps.toNat := hfps
  have hlast := Pacer.total_succ hz.toNat
    (k + ((second - 1) / (second / fps.toNat) + 1)) hpos
  have hlimit : k + Pacer.windowLimit (second / fps.toNat) =
      k + ((second - 1) / (second / fps.toNat) + 1) + 1 := rfl
  rw [hlimit, hlast]
  omega

/-- The frames that come before a window can be as many as one likes. -/
theorem exists_apart (h : LedTo s now hz fps 0 now now 0) (hholds : Holds s now) (n : Nat) :
    ∃ since, LedTo s now hz fps (n + 1) (since + second / fps.toNat) since 0 := by
  induction n with
  | zero => exact h.very_late hholds
  | succ n ih =>
    obtain ⟨since, hled⟩ := ih
    exact hled.very_late hholds

/-- How many beats can be one duration late before a window ends. -/
theorem exists_lag {duration : Nat} (h : 0 < duration) :
    ∃ n, (second ≤ (n + 2) * duration) ∧ ∀ j < n, (j + 2) * duration < second := by
  have hlag : ∃ n, second ≤ (n + 2) * duration :=
    ⟨second, Nat.le_trans (Nat.le_add_right _ 2) (Nat.le_mul_of_pos_right _ h)⟩
  exact ⟨Nat.find hlag, Nat.find_spec hlag, fun j hj => Nat.lt_of_not_le (Nat.find_min hlag hj)⟩

/-- Frames that take no time would all come in one window. -/
theorem fps_le_second (h : LedTo s now hz fps 0 now now 0) (hholds : Holds s now) (hhz : 0 < hz)
    (hfps : 0 < fps) : fps.toNat ≤ second := by
  by_contra hinstant
  have hpos : 0 < fps.toNat := hfps
  have hzero : second / fps.toNat = 0 := Nat.div_eq_of_lt (Nat.lt_of_not_le hinstant)
  have hn : ∀ j < fps.toNat * UInt32.size, j * (second / fps.toNat) < second := by
    intro j _
    rw [hzero, Nat.mul_zero]
    decide
  obtain ⟨cycles, hled, htotal⟩ := h.on_time hholds hfps hn
  have hlt := hled.cycles_lt
  rw [Pacer.total_zero, Nat.zero_add, Pacer.total, Nat.mul_div_cancel_left _ hpos,
    Nat.mul_mod_right, Nat.zero_mul] at htotal
  have hge : UInt32.size ≤ UInt32.size * hz.toNat := Nat.le_mul_of_pos_right _ hhz
  omega

/-- A counter that overflows at no beat is asked for no more than it can hold. -/
theorem sustainable (h : LedTo s now hz fps 0 now now 0) (hholds : Holds s now) (hhz : 0 < hz)
    (hfps : 0 < fps) : Sustainable hz.toNat fps.toNat := by
  have hle := h.fps_le_second hholds hhz hfps
  refine ⟨hle, ?_⟩
  have hpos : 0 < fps.toNat := hfps
  obtain ⟨n, hend, hn⟩ := exists_lag (Nat.div_pos hle hpos)
  -- The frames before the window are so many that it ends with the last frame of a second.
  obtain ⟨since, hled⟩ :=
    h.exists_apart hholds ((fps.toNat - 1) * (n + 2 + Pacer.windowLimit (second / fps.toNat)))
  obtain ⟨since', hled⟩ := hled.lag_to_end hholds hn hend
  have hwindow := hled.window_lt hholds hfps
  generalize Pacer.windowLimit (second / fps.toNat) = limit at hwindow ⊢
  have hdvd : fps.toNat ∣ (fps.toNat - 1) * (n + 2 + limit) + 1 + n + 1 + limit := by
    have hsum : (fps.toNat - 1) * (n + 2 + limit) + 1 + n + 1 + limit =
        (fps.toNat - 1) * (n + 2 + limit) + (n + 2 + limit) := by omega
    rw [hsum, ← Nat.succ_mul, Nat.succ_eq_add_one, Nat.sub_add_cancel hpos]
    exact Nat.dvd_mul_right _ _
  rw [Pacer.total_add_of_dvd hz.toNat hpos hdvd] at hwindow
  exact Nat.lt_of_add_lt_add_left hwindow

end LedTo

/-- Calls that can be recorded are those of a run that comes to its end, and the rates on show are
those of the calls. -/
theorem run_of_recordAll {s : Session} {events : List Event} {q : Pacer}
    (hq : s.pacer.recordAll ((s.frames events).map Frame.call) = .ok q) :
    ∃ s', s.run events = .ok s' ∧ s'.pacer.rates = q.rates := by
  have hrun := s.pacer_run events
  rw [hq] at hrun
  cases hs : s.run events with
  | error e =>
    rw [hs] at hrun
    cases hrun
  | ok s' =>
    rw [hs] at hrun
    have hsame : s'.pacer.unnumbered = q.unnumbered := Except.ok.inj hrun
    have hrates : s'.pacer.unnumbered.rates = q.unnumbered.rates := congrArg Pacer.rates hsame
    exact ⟨s', rfl, hrates⟩

theorem windows_bounded_start {i : Interpreter} {o : RunOptions} {now : Nat} {events : List Event}
    (hfps : 0 < o.fps) (hle : o.fps.toNat ≤ second) {full : List (List Call)} {rest : List Call}
    (hwindows : Divided now (((start i o now).frames events).map Frame.call) full rest) :
    ∀ w ∈ full ++ [rest], Bounded o.hz.toNat o.fps.toNat w :=
  (succession_frames (start i o now) events).windows_bounded (.start o.hz now hfps)
    (Nat.div_pos hle hfps) (Nat.le_refl now) hwindows

/-- Frames that last at all are too few in a window to overflow the counter of frames. -/
theorem overfull_window {i : Interpreter} {o : RunOptions} {now : Nat} {events : List Event}
    (hfps : 0 < o.fps) (hle : o.fps.toNat ≤ second)
    (h : (start i o now).run events = .error .overflow) :
    ∃ full rest, Divided now (((start i o now).frames events).map Frame.call) full rest ∧
      ∃ w ∈ full ++ [rest], UInt32.size ≤ cyclesIn w := by
  obtain ⟨full, rest, hwindows⟩ :=
    Divided.exists_of_calls now (((start i o now).frames events).map Frame.call)
  refine ⟨full, rest, hwindows, ?_⟩
  by_contra hnone
  push Not at hnone
  have hfits : ∀ w ∈ full ++ [rest], Fits w := fun w hw =>
    (windows_bounded_start hfps hle hwindows w hw).fits_iff.mpr (hnone w hw)
  have hstart : (start i o now).pacer.Counts now [] := Pacer.counts_start o.hz o.fps now
  obtain ⟨q, hq⟩ := (Pacer.recordAll_eq_ok_iff hwindows hstart).mpr hfits
  obtain ⟨s', hs', -⟩ := run_of_recordAll hq
  cases h.symm.trans hs'

/-- At sustainable rates a session survives every run, however its events fall and whenever it is
paused: the sums that are formed when a frame is counted fit the counters, and the rates on show are
the cycles and the frames of the last window that ended. At any others there are instants of a clock
that does not go backward at which a session that is never paused fails, and if its frames last at
all then because a window has more cycles than the counter can hold. -/
theorem rate_counters_hold_iff_sustainable (o : RunOptions) (hhz : 0 < o.hz) (hfps : 0 < o.fps) :
    (Sustainable o.hz.toNat o.fps.toNat → ∀ i now events,
      let s := start i o now
      ∃ s', s.run events = .ok s' ∧
        (∀ f ∈ s.frames events,
          f.before.pacer.windowCycles.toNat + f.recorded.toNat < UInt32.size ∧
            f.before.pacer.windowFrames.toNat + 1 < UInt32.size) ∧
        ∃ full rest, Divided now ((s.frames events).map Frame.call) full rest ∧
          (s'.pacer.measuredHz.toNat, s'.pacer.measuredFps.toNat) =
            (full.getLast?.map fun w => (cyclesIn w, w.length)).getD (0, 0)) ∧
      (¬ Sustainable o.hz.toNat o.fps.toNat → ∀ i now, i.paused = false →
        ∃ instants, (now :: instants).Pairwise (· ≤ ·) ∧
          let s := start i o now
          let events := instants.map beat
          s.run events = .error .overflow ∧
            (o.fps.toNat ≤ second →
              ∃ full rest, Divided now ((s.frames events).map Frame.call) full rest ∧
                ∃ w ∈ full ++ [rest], UInt32.size ≤ cyclesIn w)) := by
  refine ⟨?_, ?_⟩
  · intro hrates i now events s
    obtain ⟨full, rest, hwindows⟩ :=
      Divided.exists_of_calls now ((s.frames events).map Frame.call)
    have hfits : ∀ w ∈ full ++ [rest], Fits w := by
      intro w hw
      have hbounded := windows_bounded_start hfps hrates.1 hwindows w hw
      exact hbounded.fits_iff.mpr (Nat.lt_of_le_of_lt hbounded.cycles hrates.2)
    have hstart : s.pacer.Counts now [] := Pacer.counts_start o.hz o.fps now
    obtain ⟨q, hq⟩ := (Pacer.recordAll_eq_ok_iff hwindows hstart).mpr hfits
    obtain ⟨s', hs', hrates'⟩ := run_of_recordAll hq
    obtain ⟨-, hmeasured⟩ := Pacer.counts_of_recordAll hwindows hstart hq
    exact ⟨s', hs', (exists_run_iff s events).mp ⟨s', hs'⟩, full, rest, hwindows,
      hrates'.trans hmeasured⟩
  · intro hrates i now hpaused
    by_contra hnone
    have hholds : Holds (start i o now) now := by
      intro instants hsorted
      cases hrun : (start i o now).run (instants.map beat) with
      | ok s' => exact ⟨s', rfl⟩
      | error e =>
        cases e
        exact absurd ⟨instants, hsorted, hrun, fun hle => overfull_window hfps hle hrun⟩ hnone
    have hled : LedTo (start i o now) now o.hz o.fps 0 now now 0 :=
      ⟨[], _, List.pairwise_singleton _ _, by simp, rfl, counting_start hfps hpaused now⟩
    exact hrates (hled.sustainable hholds hhz hfps)

/-- Three frames of the default rates, the second of them paused, and the fastest clock that can be
asked for, which is too fast even for sixty frames in a second. -/
theorem default_rates_are_sustainable :
    let o : RunOptions := ⟨none, 500, 60, false, false, none, false⟩
    let fast : RunOptions := ⟨none, 4294967295, 60, false, false, none, false⟩
    let i : Interpreter := .new .modern (.ofSeed 7)
    let pause : Input := ⟨[.p], [], false⟩
    let events : List Event := [.batch 0 .backwards ⟨[], [], false⟩,
      .batch 500000000 .asLaidOut pause, .other, .batch 1000000000 .asLaidOut pause]
    (0 < o.hz ∧ 0 < o.fps ∧ Sustainable o.hz.toNat o.fps.toNat ∧
      ((start i o 0).frames events).map Frame.call =
        [⟨0, 8⟩, ⟨500000000, 0⟩, ⟨1000000000, 8⟩] ∧
      ∃ s', (start i o 0).run events = .ok s' ∧
        (s'.pacer.measuredHz.toNat, s'.pacer.measuredFps.toNat) = (16, 3)) ∧
      0 < fast.hz ∧ 0 < fast.fps ∧ ¬ Sustainable fast.hz.toNat fast.fps.toNat ∧
      i.paused = false ∧
      ∃ instants, (0 :: instants).Pairwise (· ≤ ·) ∧
        (start i fast 0).run (instants.map beat) = .error .overflow ∧
        ∃ full rest,
          Divided 0 (((start i fast 0).frames (instants.map beat)).map Frame.call) full rest ∧
            ∃ w ∈ full ++ [rest], UInt32.size ≤ cyclesIn w := by
  intro o fast i pause events
  have hrates : Sustainable o.hz.toNat o.fps.toNat := by decide
  have hfast : ¬ Sustainable fast.hz.toNat fast.fps.toNat := by decide
  have hcalls : ((start i o 0).frames events).map Frame.call =
      [⟨0, 8⟩, ⟨500000000, 0⟩, ⟨1000000000, 8⟩] := by decide +kernel
  have hdivided : Divided 0 (((start i o 0).frames events).map Frame.call)
      [[⟨0, 8⟩, ⟨500000000, 0⟩, ⟨1000000000, 8⟩]] [] := by
    rw [hcalls]
    exact .ended [⟨0, 8⟩, ⟨500000000, 0⟩] (by decide) (by decide) (.ongoing nofun)
  obtain ⟨s', hs', -, full, rest, h, hmeasured⟩ :=
    (rate_counters_hold_iff_sustainable o (by decide) (by decide)).1 hrates i 0 events
  obtain ⟨rfl, rfl⟩ := hdivided.unique h
  obtain ⟨instants, hsorted, hrun, hwindow⟩ :=
    (rate_counters_hold_iff_sustainable fast (by decide) (by decide)).2 hfast i 0 rfl
  exact ⟨⟨by decide, by decide, hrates, hcalls, s', hs', hmeasured⟩, by decide, by decide, hfast,
    rfl, instants, hsorted, hrun, hwindow (by decide)⟩

/-- The first window begins before its first frame, so at one frame in a second it holds two of
them. At half the cycles that the counter can hold these come to one more than it can, and the
session fails with the second frame. -/
theorem two_long_frames_overflow :
    let o : RunOptions := ⟨none, 2147483648, 1, false, false, none, false⟩
    let s := start (.new .modern (.ofSeed 7)) o 0
    let events := [beat 0, beat 1000000000]
    0 < o.hz ∧ 0 < o.fps ∧ s.run events = .error .overflow ∧
      ∃ f ∈ s.frames events,
        f.before.pacer.windowCycles.toNat + f.recorded.toNat = UInt32.size := by
  intro o s events
  have hstart : Counting o.hz o.fps 0 0 0 0 s := counting_start (by decide) rfl 0
  have hshare (k : Nat) : Pacer.share o.hz.toNat o.fps.toNat k = 2147483648 := by
    have hone : o.fps.toNat = 1 := rfl
    simp [Pacer.share, hone, Nat.mod_one]
    rfl
  obtain ⟨first, hfirst, -, -, hpacer, -, hrecorded⟩ := hstart.frame_beat (Nat.le_refl 0)
  have hfits : first.Fits := by
    refine ⟨?_, ?_⟩
    · rw [hpacer, hrecorded, hshare]
      decide
    · rw [hpacer]
      decide
  obtain ⟨⟨reaction, s'⟩, hok⟩ := (handle_frame hfirst).2.mpr hfits
  have hnext := hstart.early (Nat.le_refl 0) (by decide) hok
  have hdeadline : nextDeadline 0 0 (second / o.fps.toNat) = 1000000000 := by decide
  rw [hdeadline, hshare] at hnext
  obtain ⟨f, hframe, -, -, hpacer', -, hrecorded'⟩ := hnext.frame_beat (Nat.le_refl 1000000000)
  have hmem : f ∈ s.frames events := by
    rw [frames_ok hstart.goesOn hok]
    exact List.mem_append_right _ (mem_frames hnext.goesOn hframe [])
  have hsum : f.before.pacer.windowCycles.toNat + f.recorded.toNat = UInt32.size := by
    rw [hpacer', hnext.windowCycles, hrecorded', hshare]
  refine ⟨by decide, by decide, ?_, f, hmem, hsum⟩
  rw [run_eq_overflow_iff]
  exact ⟨f, hmem, fun hfits' => Nat.ne_of_lt hfits'.1 hsum⟩

end Session

end Chip8
