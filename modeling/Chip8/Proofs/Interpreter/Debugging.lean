import Chip8.Proofs.Interpreter.Run

namespace Chip8

namespace Interpreter

open History

/-- What the user of a paused interpreter does to look around in its history. -/
inductive Move
  | back
  | advance

def Move.operation : Move → Operation
  | .back => .back
  | .advance => .advance

/-- The moves that advance while the newest state is on show. -/
def liveAdvances (i : Interpreter) : List Move → Nat
  | [] => 0
  | .back :: rest => liveAdvances (i.perform .back).2 rest
  | .advance :: rest =>
    (if i.history.isReplaying then 0 else 1) + liveAdvances (i.perform .advance).2 rest

/-- The interpreter runs, and its next cycle computes a new state. -/
structure Live (i : Interpreter) : Prop where
  running : i.paused = false
  newest : i.history.isReplaying = false

/-- The second interpreter is as far in the program, though it may show an older state. -/
structure Trails (i j : Interpreter) : Prop where
  devices : j.devices = i.devices
  dialect : j.dialect = i.dialect
  states : SameStates i.history j.history

theorem Trails.execution {i j : Interpreter} (h : Trails i j) (hi : i.history.isReplaying = false)
    (hj : j.history.isReplaying = false) : j.execution = i.execution := by
  have hmachine : j.machine = i.machine := by
    rw [machine_eq_headState hi, machine_eq_headState hj, h.states.headState]
  simp only [Interpreter.execution, hmachine, h.devices, h.dialect]

theorem sameStates_follow {h g : History Machine} (hs : SameStates h g) (e : Execution) :
    SameStates (h.follow (recordOf e)) (g.follow (recordOf e)) := by
  unfold recordOf
  cases e.update with
  | changed => exact hs.commit e.machine
  | unchanged => exact hs

theorem isReplaying_follow {h : History Machine} (hr : h.isReplaying = false) (e : Execution) :
    (h.follow (recordOf e)).isReplaying = false := by
  unfold recordOf
  cases e.update with
  | changed => simp [follow, History.perform, History.commit, isReplaying]
  | unchanged => exact hr

/-- A step computes the same new state, whoever takes it. -/
theorem Trails.step_live {i j : Interpreter} (h : Trails i j) (hi : i.history.isReplaying = false)
    (hj : j.history.isReplaying = false) : Trails i.step j.step := by
  rw [Interpreter.step_live hi, Interpreter.step_live hj, h.execution hi hj]
  exact ⟨rfl, h.dialect, sameStates_follow h.states i.execution⟩

theorem Trails.step_replaying {i j : Interpreter} (h : Trails i j)
    (hj : j.history.isReplaying = true) : Trails i j.step := by
  rw [Interpreter.step_replaying hj]
  exact ⟨h.devices, h.dialect, h.states.trans j.history.sameStates_forward⟩

theorem Live.cycle {i : Interpreter} (h : Live i) : i.cycle = i.step := by
  simp [Interpreter.cycle, h.running]

theorem Live.step {i : Interpreter} (h : Live i) : Live i.step := by
  rw [Interpreter.step_live h.newest]
  exact ⟨h.running, isReplaying_follow h.newest i.execution⟩

/-- The operations of an uninterrupted run. -/
def cycles (n : Nat) : List Operation := List.replicate n .cycle

theorem after_cycles_succ {i : Interpreter} (n : Nat) :
    i.after (cycles (n + 1)) = i.cycle.after (cycles n) := rfl

theorem after_cycles_add (i : Interpreter) (m n : Nat) :
    i.after (cycles (m + n)) = (i.after (cycles m)).after (cycles n) := by
  rw [← after_append, cycles, cycles, cycles, List.replicate_append_replicate]

theorem Live.after_cycles {i : Interpreter} (h : Live i) (n : Nat) : Live (i.after (cycles n)) := by
  induction n generalizing i with
  | zero => exact h
  | succ n ih =>
    rw [after_cycles_succ, h.cycle]
    exact ih h.step

/-- A session at the newest state is matched by a cycle for each live advance, and elsewhere by
nothing at all. -/
theorem Trails.session {i j : Interpreter} (h : Trails i j) (hi : Live i) (hj : j.paused = true)
    (moves : List Move) :
    Trails (i.after (cycles (liveAdvances j moves))) (j.after (moves.map Move.operation)) ∧
      (j.after (moves.map Move.operation)).paused = true := by
  induction moves generalizing i j with
  | nil => exact ⟨h, hj⟩
  | cons move rest ih =>
    cases move with
    | back =>
      simp only [List.map_cons, Move.operation, after_cons, liveAdvances]
      rw [perform_back hj]
      exact ih ⟨h.devices, h.dialect, h.states.trans j.history.sameStates_back⟩ hi hj
    | advance =>
      have hmarked : Trails i { j with stepped := true } := ⟨h.devices, h.dialect, h.states⟩
      simp only [List.map_cons, Move.operation, after_cons, liveAdvances]
      rw [perform_advance hj]
      cases hr : j.history.isReplaying with
      | true =>
        simp only [↓reduceIte, Nat.zero_add]
        exact ih (hmarked.step_replaying hr) hi ((paused_step _).trans hj)
      | false =>
        simp only [Bool.false_eq_true, ↓reduceIte, Nat.add_comm 1, after_cycles_succ, hi.cycle]
        exact ih (hmarked.step_live hi.newest hr) hi.step ((paused_step _).trans hj)

theorem extends_follow (h : History Machine) (e : Execution) :
    Extends h (h.follow (recordOf e)) := by
  unfold recordOf
  cases e.update with
  | changed => exact .commit h e.machine
  | unchanged => exact .refl h

theorem Live.extends_after {i : Interpreter} (h : Live i) (n : Nat) :
    Extends i.history (i.after (cycles n)).history := by
  induction n generalizing i with
  | zero => exact .refl _
  | succ n ih =>
    have hstep : Extends i.history i.step.history := by
      rw [Interpreter.step_live h.newest]
      exact extends_follow i.history i.execution
    rw [after_cycles_succ, h.cycle]
    exact hstep.trans (ih h.step)

/-- Running on from an older state replays up to the newest and stops there. -/
theorem Trails.replay {i j : Interpreter} (h : Trails i j) (hi : Live i) (hj : j.paused = false) :
    { j.after (cycles j.history.behind) with stepped := i.stepped } = i := by
  generalize hn : j.history.behind = n
  induction n generalizing j with
  | zero =>
    have hbehind := i.history.isReplaying_eq_false_iff.mp hi.newest
    have hhistory := h.states.eq (hn.trans hbehind.symm)
    have hpaused := hj.trans hi.running.symm
    cases i
    cases j
    obtain ⟨rfl, rfl, -⟩ := h
    cases hhistory
    cases hpaused
    rfl
  | succ n ih =>
    have hr : j.history.isReplaying = true := j.history.isReplaying_iff.mpr (by omega)
    have hcycle : j.cycle = j.step := by simp [Interpreter.cycle, hj]
    rw [after_cycles_succ, hcycle]
    refine ih (h.step_replaying hr) ((paused_step _).trans hj) ?_
    rw [Interpreter.step_replaying hr, behind_forward, hn, Nat.add_sub_cancel]

/-- A debugging session of a running program leaves everything as the uninterrupted run has it after
the session's live advances. It shows what that run held a few commits earlier, and running on from
there makes up for it. -/
theorem debugging_keeps_run (i : Interpreter) (moves : List Move) (hi : i.Reachable)
    (hrunning : i.paused = false) (hnewest : i.history.isReplaying = false) :
    let advances := i.togglePause.liveAdvances moves
    let run := i.after (cycles advances)
    let shown := i.after (.togglePause :: moves.map Move.operation)
    shown.devices = run.devices ∧
      shown.history.slots = run.history.slots ∧
      shown.history.head = run.history.head ∧
      shown.history.commits = run.history.commits ∧
      shown.history.behind ≤ min run.history.commits 999 ∧
      shown.machine = run.history.stateBehind shown.history.behind ∧
      (∀ n ≤ advances,
        (i.after (cycles n)).history.commits + shown.history.behind = run.history.commits →
          shown.machine = (i.after (cycles n)).machine) ∧
      { shown.after (.togglePause :: cycles shown.history.behind) with stepped := run.stepped } =
        run ∧
      (shown.perform .back).1 = .moved (shown.history.behind < min run.history.commits 999) := by
  intro advances run shown
  have hlive : Live i := ⟨hrunning, hnewest⟩
  have hpaused : i.togglePause.paused = true := by simp [togglePause, hrunning]
  have hstart : Trails i i.togglePause := ⟨rfl, rfl, .refl _⟩
  obtain ⟨htrails, hshown⟩ := hstart.session hlive hpaused moves
  change Trails run shown at htrails
  change shown.paused = true at hshown
  have hreachable : shown.Reachable := hi.after _
  have hdepth : shown.history.depth = min run.history.commits 999 := by
    rw [History.depth, hreachable.capacity, htrails.states.commits]
  have hbehind := hreachable.behind_le_depth
  have hmachine : shown.machine = run.history.stateBehind shown.history.behind := by
    rw [← htrails.states.stateBehind, stateBehind_behind]
    rfl
  refine ⟨htrails.devices, htrails.states.slots, htrails.states.head, htrails.states.commits,
    hdepth ▸ hbehind, hmachine, ?_, ?_, ?_⟩
  · intro n hn hcommits
    have hmiddle := hlive.after_cycles n
    have hrun : run = (i.after (cycles n)).after (cycles (advances - n)) := by
      rw [← after_cycles_add, Nat.add_sub_cancel' hn]
    have hkept := (hmiddle.extends_after (advances - n)).kept 0
    rw [← hrun, Nat.zero_add, show run.history.commits - (i.after (cycles n)).history.commits =
      shown.history.behind by omega] at hkept
    have hlt := shown.history.behind_lt_capacity
    rw [hreachable.capacity, ← (hi.after (cycles n)).capacity] at hlt
    rw [hmachine, hkept hlt, stateBehind_zero, machine_eq_headState hmiddle.newest]
  · have hresumed : Trails run shown.togglePause :=
      ⟨htrails.devices, htrails.dialect, htrails.states⟩
    exact hresumed.replay (hlive.after_cycles advances) (by simp [togglePause, hshown])
  · rw [perform_back hshown, hdepth]

/-- A counting loop, rewound by two states, replayed over both, stepped once and rewound again. -/
theorem debugging_keeps_counter :
    let i := (new .modern (.ofSeed 7)).after
      [.load [0x70, 0x01, 0x12, 0x00], .cycle, .cycle, .cycle]
    let run := i.after (cycles 1)
    let shown := i.after [.togglePause, .back, .back, .advance, .advance, .advance, .back]
    i.Reachable ∧ i.paused = false ∧ i.history.isReplaying = false ∧
      shown.history.behind = 1 ∧ shown.machine.pc = 0x202 ∧
      shown.machine = (i.after (cycles 0)).machine ∧ shown.devices = run.devices ∧
      { shown.after (.togglePause :: cycles 1) with stepped := run.stepped } = run := by
  intro i run shown
  have hi : i.Reachable := ⟨_, _, _, rfl⟩
  obtain ⟨hrunning, hnewest, hbehind, hpc⟩ : i.paused = false ∧ i.history.isReplaying = false ∧
      shown.history.behind = 1 ∧ shown.machine.pc = 0x202 := by
    decide +kernel
  have hadvances : i.togglePause.liveAdvances
      [.back, .back, .advance, .advance, .advance, .back] = 1 := by decide +kernel
  obtain ⟨hdevices, -, -, -, -, -, hmachine, hresumed, -⟩ := debugging_keeps_run i
    [.back, .back, .advance, .advance, .advance, .back] hi hrunning hnewest
  simp only [hadvances, List.map_cons, List.map_nil, Move.operation] at hdevices hmachine hresumed
  have hzero := hmachine 0 (Nat.zero_le 1) (by decide +kernel)
  rw [hbehind] at hresumed
  exact ⟨hi, hrunning, hnewest, hbehind, hpc, hzero, hdevices, hresumed⟩

end Interpreter

end Chip8
