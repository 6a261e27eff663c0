import Chip8.Proofs.Pacer
import Chip8.Proofs.Session.Run

namespace Chip8.Session

open Interpreter (Operation)

namespace Frame

variable {f : Frame} {s : Session}

theorem atFrame_after {hz fps : UInt32} {k : Nat} (h : f.before.pacer.AtFrame hz fps k)
    (hs : f.after = .ok s) : s.pacer.AtFrame hz fps (k + 1) :=
  h.nextFrame.record (after_eq_ok hs).2.1

theorem frameDuration_after (hs : f.after = .ok s) :
    s.pacer.frameDuration = f.before.pacer.frameDuration := by
  obtain ⟨-, hfps, -⟩ := Pacer.rates_of_record (after_eq_ok hs).2.1
  rw [Pacer.frameDuration, hfps]
  rfl

theorem deadline_after (hs : f.after = .ok s) :
    s.deadline = nextDeadline f.before.deadline f.now f.before.pacer.frameDuration := by
  rw [← frameDuration_after hs]
  exact (after_eq_ok hs).2.2.2.1

/-- Whether or not the session fell behind, the next frame is due at this one's time at the
earliest, and at least the duration of a frame after this one was due. -/
theorem le_deadline_after (hs : f.after = .ok s) :
    f.now ≤ s.deadline ∧ f.before.deadline + f.before.pacer.frameDuration ≤ s.deadline := by
  rw [deadline_after hs, nextDeadline]
  split <;> omega

end Frame

/-- Frames that follow on one another: each comes when it is due, and each but the last leaves the
deadline and the pacer of the next. -/
inductive Succession : Nat → Pacer → List Frame → Prop
  | nil (deadline : Nat) (pacer : Pacer) : Succession deadline pacer []
  | last (f : Frame) (due : f.before.deadline ≤ f.now) :
      Succession f.before.deadline f.before.pacer [f]
  | cons (f : Frame) {s : Session} (fs : List Frame) (due : f.before.deadline ≤ f.now)
      (after : f.after = .ok s) (rest : Succession s.deadline s.pacer fs) :
      Succession f.before.deadline f.before.pacer (f :: fs)

theorem succession_frames (s : Session) (events : List Event) :
    Succession s.deadline s.pacer (s.frames events) := by
  induction s, events using run.induct with
  | case1 s => exact .nil _ _
  | case2 s event rest hclosed =>
    rw [frames_closed hclosed]
    exact .nil _ _
  | case3 s event rest hopen reaction s' hok ih =>
    rw [frames_ok hopen hok]
    rcases handle_eq_ok hok with ⟨f, hframe, hafter, -⟩ | ⟨hframe, -, hpacer, hdeadline, -⟩
    · obtain ⟨hdue, hdeadline, hpacer, -⟩ := before_of_frame? hframe
      rw [← hdeadline] at hdue
      rw [hframe, ← hdeadline, ← hpacer]
      exact .cons f _ hdue hafter ih
    · rwa [hframe, ← hdeadline, ← hpacer]
  | case4 s event rest hopen e herror =>
    rw [frames_error hopen herror]
    cases hframe : s.frame? event with
    | none => exact .nil _ _
    | some f =>
      obtain ⟨hdue, hdeadline, hpacer, -⟩ := before_of_frame? hframe
      rw [← hdeadline] at hdue
      rw [← hdeadline, ← hpacer]
      exact .last f hdue

namespace Succession

variable {deadline : Nat} {pacer : Pacer} {fs : List Frame}

theorem cycles {hz fps : UInt32} {k : Nat} (h : Succession deadline pacer fs)
    (hp : pacer.AtFrame hz fps k) :
    fs.map Frame.cycles = (List.range' k fs.length).map (Pacer.share hz.toNat fps.toNat) := by
  induction h generalizing k with
  | nil => rfl
  | last f due => exact congrArg (fun cycles => [cycles]) hp.cycles
  | cons f fs due after rest ih =>
    have hf : f.cycles = Pacer.share hz.toNat fps.toNat k := hp.cycles
    rw [List.map_cons, List.length_cons, List.range'_succ, List.map_cons, hf,
      ih (Frame.atFrame_after hp after)]

/-- Between a deadline and a later frame there are as many frame durations as there are frames. -/
theorem due_le (h : Succession deadline pacer fs) {k : Nat} {g : Frame} (hg : fs[k]? = some g) :
    deadline + k * pacer.frameDuration ≤ g.now := by
  induction h generalizing k with
  | nil => cases hg
  | last f due =>
    obtain ⟨rfl, rfl⟩ : k = 0 ∧ f = g := by simpa [List.getElem?_singleton] using hg
    rwa [Nat.zero_mul, Nat.add_zero]
  | @cons f s fs due after rest ih =>
    cases k with
    | zero =>
      cases hg
      rwa [Nat.zero_mul, Nat.add_zero]
    | succ k =>
      have hrest := ih hg
      rw [Frame.frameDuration_after after] at hrest
      calc f.before.deadline + (k + 1) * f.before.pacer.frameDuration
          = f.before.deadline + f.before.pacer.frameDuration +
              k * f.before.pacer.frameDuration := by
            rw [Nat.succ_mul, Nat.add_assoc, Nat.add_comm (k * _)]
        _ ≤ s.deadline + k * f.before.pacer.frameDuration :=
            Nat.add_le_add_right (Frame.le_deadline_after after).2 _
        _ ≤ g.now := hrest

/-- However late a frame was, the ones after it are as far from it as if it had been in time. -/
theorem apart (h : Succession deadline pacer fs) {k l : Nat} {f g : Frame} (hlt : k < l)
    (hf : fs[k]? = some f) (hg : fs[l]? = some g) :
    f.now + (l - k - 1) * pacer.frameDuration ≤ g.now := by
  induction h generalizing k l with
  | nil => cases hf
  | last first due =>
    -- There is no frame after the last.
    have hl : l < 1 := (List.getElem?_eq_some_iff.mp hg).1
    omega
  | @cons first s fs due after rest ih =>
    obtain ⟨l, rfl⟩ : ∃ n, l = n + 1 := ⟨l - 1, by omega⟩
    rw [← Frame.frameDuration_after after]
    cases k with
    | zero =>
      cases hf
      calc f.now + l * s.pacer.frameDuration
          ≤ s.deadline + l * s.pacer.frameDuration :=
            Nat.add_le_add_right (Frame.le_deadline_after after).1 _
        _ ≤ g.now := rest.due_le hg
    | succ k =>
      rw [Nat.add_sub_add_right]
      exact ih (Nat.lt_of_succ_lt_succ hlt) hf hg

end Succession

theorem atFrame_run {s s' : Session} {hz fps : UInt32} {k : Nat} (h : s.pacer.AtFrame hz fps k)
    {events : List Event} (hs : s.run events = .ok s') : ∃ n, s'.pacer.AtFrame hz fps n := by
  refine run_invariant (P := fun s => ∃ n, s.pacer.AtFrame hz fps n) ?_ ⟨k, h⟩ hs
  rintro s event reaction s' ⟨n, hn⟩ hok
  rcases handle_eq_ok hok with ⟨f, hframe, hafter, -⟩ | ⟨-, -, hpacer, -⟩
  · obtain ⟨-, -, hpacer, -⟩ := before_of_frame? hframe
    rw [← hpacer] at hn
    exact ⟨n + 1, Frame.atFrame_after hn hafter⟩
  · rw [hpacer]
    exact ⟨n, hn⟩

/-- If the clock or the timers are to run on, the interpreter is not paused. -/
def Unpaused (i : Interpreter) (op : Operation) : Prop :=
  op = .cycle ∨ op = .tick → i.paused = false

theorem Frame.unpaused {f : Frame} (h : f.before.interpreter.paused = false) :
    f.before.interpreter.Throughout Unpaused f.operations := by
  refine Interpreter.throughout_of_invariant (Q := fun i => i.paused = false) ?_ h
  intro i op hop hi
  refine ⟨fun _ => hi, ?_⟩
  rw [Interpreter.perform_eq]
  rcases List.mem_append.mp hop with hop | hop
  · cases List.eq_of_mem_replicate hop
    exact hi
  · cases List.mem_singleton.mp hop
    exact hi

theorem unpaused_operationsOf {s : Session} {event : Event}
    (h : ∀ f, s.frame? event = some f → f.before.interpreter.paused = false) :
    s.interpreter.Throughout Unpaused (s.operationsOf event) := by
  rw [operationsOf, Interpreter.throughout_append]
  refine ⟨?_, ?_⟩
  · refine Interpreter.throughout_of_invariant (Q := fun _ => True) ?_ trivial
    intro i op hop _
    obtain ⟨hcycle, htick⟩ := event.operations_ne hop
    exact ⟨fun hclock => (hclock.elim hcycle htick).elim, trivial⟩
  · cases hframe : s.frame? event with
    | none => trivial
    | some f =>
      obtain ⟨-, -, -, hbefore⟩ := before_of_frame? hframe
      rw [← hbefore, Option.toList_some, List.flatMap_singleton]
      exact Frame.unpaused (h f hframe)

theorem unpaused_operations {s : Session} {events : List Event}
    (h : ∀ f ∈ s.frames events, f.before.interpreter.paused = false) :
    s.interpreter.Throughout Unpaused (s.operations events) := by
  induction s, events using run.induct with
  | case1 s => trivial
  | case2 s event rest hclosed =>
    rw [operations_closed hclosed]
    trivial
  | case3 s event rest hopen reaction s' hok ih =>
    rw [frames_ok hopen hok] at h
    rw [operations_ok hopen hok, Interpreter.throughout_append, ← interpreter_handle hok]
    refine ⟨unpaused_operationsOf ?_, ih ?_⟩
    · intro f hf
      exact h f (List.mem_append_left _ (Option.mem_toList.mpr hf))
    · intro f hf
      exact h f (List.mem_append_right _ hf)
  | case4 s event rest hopen e herror =>
    rw [frames_error hopen herror] at h
    rw [operations_error hopen herror]
    exact unpaused_operationsOf fun f hf => h f (Option.mem_toList.mpr hf)

/-- An event's clock cycles and its ticks are those of its frame. -/
theorem count_operationsOf (s : Session) (event : Event) :
    (s.operationsOf event).count .cycle = ((s.frame? event).toList.map Frame.cycles).sum ∧
      (s.operationsOf event).count .tick = (s.frame? event).toList.length := by
  have hcycle : event.operations.count .cycle = 0 :=
    List.count_eq_zero_of_not_mem fun h => (event.operations_ne h).1 rfl
  have htick : event.operations.count .tick = 0 :=
    List.count_eq_zero_of_not_mem fun h => (event.operations_ne h).2 rfl
  rw [operationsOf, List.count_append, List.count_append, hcycle, htick]
  cases s.frame? event with
  | none => exact ⟨rfl, rfl⟩
  | some f => simp [Frame.operations, List.count_replicate]

theorem count_operations (s : Session) (events : List Event) :
    (s.operations events).count .cycle = ((s.frames events).map Frame.cycles).sum ∧
      (s.operations events).count .tick = (s.frames events).length := by
  induction s, events using run.induct with
  | case1 s => exact ⟨rfl, rfl⟩
  | case2 s event rest hclosed =>
    rw [operations_closed hclosed, frames_closed hclosed]
    exact ⟨rfl, rfl⟩
  | case3 s event rest hopen reaction s' hok ih =>
    obtain ⟨hcycle, htick⟩ := s.count_operationsOf event
    obtain ⟨hcycles, hticks⟩ := ih
    rw [operations_ok hopen hok, frames_ok hopen hok, List.count_append, List.count_append,
      List.map_append, List.sum_append, List.length_append, hcycle, htick, hcycles, hticks]
    exact ⟨rfl, rfl⟩
  | case4 s event rest hopen e herror =>
    rw [operations_error hopen herror, frames_error hopen herror]
    exact s.count_operationsOf event

/-- The frames of a second come to the rate exactly, wherever one begins to count, and no frame has
less than its even share or more than that and all that is left over. While it is not paused the
session runs so many cycles in so many frames, and it goes on after them if each can be counted. -/
theorem second_of_frames_runs_at_rate (o : RunOptions) (hfps : 0 < o.fps) (now k : Nat) :
    let p := Pacer.start o.hz o.fps now
    let hz := o.hz.toNat
    let fps := o.fps.toNat
    ((List.range k).map p.cyclesAt).sum = k / fps * hz + k % fps * (hz / fps) ∧
      ((List.range' k fps).map p.cyclesAt).sum = hz ∧
      hz / fps ≤ p.cyclesAt k ∧ p.cyclesAt k ≤ hz / fps + hz % fps ∧
      (p.afterFrames k).Exact ∧
      ∀ (i : Interpreter) (past events : List Event) (s : Session),
        (start i o now).run past = .ok s →
        let ops := s.operations events
        (s.frames events).length = fps →
        (∀ f ∈ s.frames events, f.before.interpreter.paused = false) →
        (∀ s', s.run events = .ok s' → s'.interpreter = s.interpreter.after ops) ∧
          ((∃ s', s.run events = .ok s') ↔ ∀ f ∈ s.frames events, f.Fits) ∧
          ops.count .cycle = hz ∧ ops.count .tick = fps ∧ s.interpreter.Throughout Unpaused ops := by
  intro p hz fps
  have hpos : 0 < fps := hfps
  have hstart : p.AtFrame o.hz o.fps 0 := .start o.hz now hfps
  have hcycles : p.cyclesAt = Pacer.share hz fps := funext (Pacer.cyclesAt_eq_share hstart)
  rw [hcycles]
  refine ⟨?_, Pacer.sum_share_second hz k hpos, Pacer.div_le_share _ _ _, Pacer.share_le _ _ _,
    (Pacer.atFrame_afterFrames hstart k).exact, ?_⟩
  · have hsum := Pacer.sum_share hz 0 k hpos
    rwa [Pacer.total_zero, Nat.add_zero, Nat.zero_add, ← List.range_eq_range'] at hsum
  · intro i past events s hs ops hlength hpaused
    obtain ⟨n, hn⟩ := atFrame_run (s := start i o now) hstart hs
    obtain ⟨hcount, hticks⟩ := count_operations s events
    rw [(succession_frames s events).cycles hn, hlength, Pacer.sum_share_second _ _ hpos] at hcount
    exact ⟨fun _ => interpreter_run, exists_run_iff s events, hcount, hticks.trans hlength,
      unpaused_operations hpaused⟩

/-- Five cycles in two frames, counted from the second frame on: it has the odd cycle. -/
theorem odd_cycle_is_not_lost :
    let o : RunOptions := ⟨none, 5, 2, false, false, none, false⟩
    let idle : Input := ⟨[], [], false⟩
    let past : List Event := [.batch 0 .asLaidOut idle]
    let events : List Event :=
      [.batch 500000000 .asLaidOut idle, .other, .batch 1000000000 .backwards idle]
    0 < o.fps ∧ ∃ s s', (start (.new .modern (.ofSeed 7)) o 0).run past = .ok s ∧
      (s.frames events).length = 2 ∧
      (∀ f ∈ s.frames events, f.before.interpreter.paused = false) ∧
      s.run events = .ok s' ∧ s'.interpreter = s.interpreter.after (s.operations events) ∧
      (s.operations events).count .cycle = 5 ∧ (s.operations events).count .tick = 2 := by
  intro o idle past events
  have hfps : 0 < o.fps := by decide
  obtain ⟨s, hs⟩ : ∃ s, (start (.new .modern (.ofSeed 7)) o 0).run past = .ok s := by
    rw [exists_run_iff]
    decide +kernel
  obtain ⟨hlength, hall⟩ :
      ((start (.new .modern (.ofSeed 7)) o 0).frames (past ++ events)).length = 1 + 2 ∧
        ∀ f ∈ (start (.new .modern (.ofSeed 7)) o 0).frames (past ++ events),
          f.before.interpreter.paused = false ∧ f.Fits := by
    decide +kernel
  have hpast : ((start (.new .modern (.ofSeed 7)) o 0).frames past).length = 1 := by
    decide +kernel
  rw [frames_append hs, List.length_append, hpast, Nat.add_left_cancel_iff] at hlength
  have hframes : ∀ f ∈ s.frames events, f.before.interpreter.paused = false ∧ f.Fits := by
    intro f hf
    refine hall f ?_
    rw [frames_append hs]
    exact List.mem_append_right _ hf
  have hpaused : ∀ f ∈ s.frames events, f.before.interpreter.paused = false :=
    fun f hf => (hframes f hf).1
  obtain ⟨-, -, -, -, -, hrun⟩ := second_of_frames_runs_at_rate o hfps 0 1
  obtain ⟨hinterpreter, hgoesOn, hcycle, htick, -⟩ :=
    hrun (.new .modern (.ofSeed 7)) past events s hs hlength hpaused
  obtain ⟨s', hs'⟩ := hgoesOn.mpr fun f hf => (hframes f hf).2
  exact ⟨hfps, s, s', hs, hlength, hpaused, hs', hinterpreter s' hs', hcycle, htick⟩

/-- No frame comes before its time: the frame with number `k` comes `k` frame durations after the
session began at the earliest. An event lets one frame run, if that is due, and as the next is never
due before the clock reading of the last, the frames that were missed are not made up for. Nothing
but a frame that cannot be counted keeps a session from answering. -/
theorem frames_never_ahead_of_rate (i : Interpreter) (o : RunOptions) (now : Nat)
    (events : List Event) :
    let s := start i o now
    let duration := s.pacer.frameDuration
    (∀ k f, (s.frames events)[k]? = some f → now + k * duration ≤ f.now) ∧
      (∀ m ∈ s.met events,
        let ops := m.1.operationsOf m.2
        (∀ reaction s', m.1.handle m.2 = .ok (reaction, s') →
          s'.interpreter = m.1.interpreter.after ops ∧ reaction.redraws = ops.count .tick) ∧
          ((∃ answer, m.1.handle m.2 = .ok answer) ↔ ∀ f, m.1.frame? m.2 = some f → f.Fits) ∧
          ops.count .tick ≤ 1 ∧
          (ops.count .tick = 1 ↔
            ∃ t order input, m.2 = .batch t order input ∧ input.ends = false ∧
              m.1.deadline ≤ t)) ∧
      (∀ answers, s.handleAll events = .ok answers →
        (answers.map fun r => r.1.redraws).sum = (s.frames events).length) ∧
      ((∃ answers, s.handleAll events = .ok answers) ↔ ∀ f ∈ s.frames events, f.Fits) ∧
      (∀ f ∈ s.frames events, ∀ s', f.after = .ok s' → f.now ≤ s'.deadline) ∧
      ∀ k l f g, k < l → (s.frames events)[k]? = some f → (s.frames events)[l]? = some g →
        f.now + (l - k - 1) * duration ≤ g.now := by
  intro s duration
  have hframes : Succession now s.pacer (s.frames events) := succession_frames s events
  have hopen : s.waiting ≠ .closed := nofun
  refine ⟨fun k f hf => hframes.due_le hf, ?_, fun _ => redraws_handleAll hopen,
    exists_handleAll_iff hopen events, fun f _ s' hs => (Frame.le_deadline_after hs).1,
    fun k l f g hlt hf hg => hframes.apart hlt hf hg⟩
  intro m _ ops
  have hticks : ops.count .tick = (m.1.frame? m.2).toList.length :=
    (count_operationsOf m.1 m.2).2
  refine ⟨?_, exists_handle_iff m.1 m.2, ?_⟩
  · intro reaction s' hok
    exact ⟨interpreter_handle hok, (redraws_handle hok).trans hticks.symm⟩
  · rw [hticks, ← isSome_frame?_iff]
    cases m.1.frame? m.2 with
    | none => exact ⟨Nat.zero_le 1, nofun, nofun⟩
    | some f => exact ⟨Nat.le_refl 1, fun _ => rfl, fun _ => rfl⟩

/-- At sixty frames in a second the second frame comes after five were missed. The third does not
come at once. -/
theorem missed_frames_are_dropped :
    let o : RunOptions := ⟨none, 500, 60, false, false, none, false⟩
    let idle : Input := ⟨[], [], false⟩
    let s := start (.new .modern (.ofSeed 7)) o 1000
    let events : List Event := [.batch 1000 .asLaidOut idle, .batch 100000000 .backwards idle,
      .batch 100000001 .asLaidOut idle, .batch 116666666 .asLaidOut idle]
    ∃ f g answers, (s.frames events).map Frame.now = [1000, 100000000, 116666666] ∧
      (s.frames events)[0]? = some f ∧ (s.frames events)[2]? = some g ∧
      1000 + 2 * s.pacer.frameDuration ≤ g.now ∧ f.now + 1 * s.pacer.frameDuration ≤ g.now ∧
      s.handleAll events = .ok answers ∧ (answers.map fun r => r.1.redraws).sum = 3 := by
  intro o idle s events
  obtain ⟨hnow, hfits⟩ : (s.frames events).map Frame.now = [1000, 100000000, 116666666] ∧
      ∀ f ∈ s.frames events, f.Fits := by
    decide +kernel
  have hlength : (s.frames events).length = 3 := by
    rw [← List.length_map Frame.now, hnow]
    rfl
  obtain ⟨f, hfirst⟩ : ∃ f, (s.frames events)[0]? = some f := by
    rw [List.getElem?_eq_getElem (by omega)]
    exact ⟨_, rfl⟩
  obtain ⟨g, hlast⟩ : ∃ g, (s.frames events)[2]? = some g := by
    rw [List.getElem?_eq_getElem (by omega)]
    exact ⟨_, rfl⟩
  obtain ⟨hdue, -, hredraws, hanswers, -, hapart⟩ :=
    frames_never_ahead_of_rate (.new .modern (.ofSeed 7)) o 1000 events
  obtain ⟨answers, hall⟩ := hanswers.mpr hfits
  exact ⟨f, g, answers, hnow, hfirst, hlast, hdue 2 g hlast,
    hapart 0 2 f g (by decide) hfirst hlast, hall, (hredraws answers hall).trans hlength⟩

end Chip8.Session
