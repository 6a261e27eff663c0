import Chip8.Memory.Demo
import Chip8.Proofs.Interpreter.Debugging
import Chip8.Proofs.Machine.Stall

namespace Chip8

/-- What the instruction makes of a machine depends on memory at most, and it leaves the devices as
they are. -/
def Instruction.isSelfContained : Instruction → Bool
  | .skip (.keyHeld _) | .skip (.keyFree _) | .waitForKey _ => false
  | .random _ _ => false
  | .arithmetic .shiftRight _ _ | .arithmetic .shiftLeft _ _ => false
  | .storeDecimal _ | .storeRegisters _ | .loadRegisters _ => false
  | _ => true

theorem Machine.execute_of_isSelfContained {i : Instruction} (hi : i.isSelfContained = true)
    (m : Machine) {d e : Devices} (hmemory : e.memory = d.memory) (a b : Dialect) :
    m.execute b e i = { m.execute a d i with devices := e } := by
  cases i with
  | ret =>
    simp only [execute]
    split
    · rfl
    · split <;> rfl
  | jump target =>
    simp only [execute]
    split <;> rfl
  | call target =>
    simp only [execute]
    split <;> rfl
  | skip condition =>
    cases condition with
    | keyHeld x => cases hi
    | keyFree x => cases hi
    | _ => rfl
  | arithmetic operation x y =>
    cases operation with
    | shiftRight => cases hi
    | shiftLeft => cases hi
    | _ => rfl
  | draw x y rows =>
    simp only [execute, hmemory]
    split <;> rfl
  | random x mask => cases hi
  | waitForKey x => cases hi
  | storeDecimal x => cases hi
  | storeRegisters last => cases hi
  | loadRegisters last => cases hi
  | _ => rfl

namespace Demo

theorem program_fits : program.length ≤ Memory.programLimit := by decide +kernel

/-- Memory as the demo finds it, and leaves it. -/
def memory : Memory := ⟨Memory.image program program_fits, Memory.image program program_fits⟩

/-- What the machine is about to execute. -/
def nextWord (m : Machine) : Word := memory.readWord m.pc

/-- What comes of it, when no key is held. -/
def execution (m : Machine) : Execution :=
  m.executeWord .modern ⟨memory, .idle, .ofSeed 0⟩ (nextWord m)

/-- The machine after so many instructions of the demo. -/
def course : Nat → Machine
  | 0 => .initial
  | n + 1 => (execution (course n)).machine

/-- The screen after so many instructions of the demo: a C appears with the sixth, and an 8 to the
right of it with the eleventh. -/
def screenAfter (n : Nat) : FrameBuffer :=
  let letter := (FrameBuffer.blank.drawRows 27 10 [0xF0, 0x80, 0x80, 0x80, 0xF0]).2
  let both := (letter.drawRows 32 10 [0xF0, 0x90, 0xF0, 0x90, 0xF0]).2
  if n < 6 then .blank else if n < 11 then letter else both

theorem screenAfter_of_le {n : Nat} (h : 11 ≤ n) : screenAfter n = screenAfter 11 := by
  have hletter : ¬ n < 6 := by omega
  have hboth : ¬ n < 11 := Nat.not_lt_of_le h
  simp only [screenAfter, if_neg hletter, if_neg hboth]
  rfl

/-- What a state of the demo can be relied on for. -/
structure Regular (m : Machine) (screen : FrameBuffer) : Prop where
  instruction : ∃ i ∈ Instruction.decode? (nextWord m), i.isSelfContained = true
  update : (execution m).update = .changed
  /-- No timer was ever set. -/
  tick : m.tick = m
  screen : m.screen = screen

instance (m : Machine) (screen : FrameBuffer) : Decidable (Regular m screen) :=
  decidable_of_iff (_ ∧ _ ∧ _ ∧ _)
    ⟨fun h => ⟨h.1, h.2.1, h.2.2.1, h.2.2.2⟩, fun h => ⟨h.1, h.2, h.3, h.4⟩⟩

/-- One evaluation for both facts, since either takes the run up to the point where it closes on
itself. -/
theorem early_course :
    (∀ n < 16, Regular (course n) (screenAfter n)) ∧ course 16 = course 13 := by
  decide +kernel

/-- From the fourteenth state on, the same three come over and over. -/
theorem course_add_sixteen (n : Nat) : course (n + 16) = course (n + 13) := by
  induction n with
  | zero => exact early_course.2
  | succ n ih => exact congrArg (fun m => (execution m).machine) ih

theorem regular_course (n : Nat) : Regular (course n) (screenAfter n) := by
  induction n using Nat.strongRecOn with
  | ind n ih =>
    by_cases hn : n < 16
    · exact early_course.1 n hn
    · obtain ⟨k, rfl⟩ := Nat.exists_eq_add_of_le' (Nat.le_of_not_lt hn)
      have hscreen : screenAfter (k + 16) = screenAfter (k + 13) := by
        rw [screenAfter_of_le (by omega), screenAfter_of_le (n := k + 13) (by omega)]
      rw [course_add_sixteen, hscreen]
      exact ih (k + 13) (by omega)

/-- Every instruction of the demo is carried out, whatever the dialect, and does nothing to the
devices. -/
theorem executeWord_course (n : Nat) (dialect : Dialect) {d : Devices} (hd : d.memory = memory) :
    (course n).executeWord dialect d (nextWord (course n)) = ⟨.changed, course (n + 1), d⟩ := by
  obtain ⟨⟨i, hi, hself⟩, hupdate, -, -⟩ := regular_course n
  have hidle := Machine.execute_of_isSelfContained hself (course n)
    (d := ⟨memory, .idle, .ofSeed 0⟩) hd .modern dialect
  rw [← Machine.executeWord_some hi, ← Machine.executeWord_some hi] at hidle
  rw [hidle]
  change (⟨(execution (course n)).update, course (n + 1), d⟩ : Execution) = _
  rw [hupdate]

/-- The newest state is the one that the demo is in after as many instructions as were recorded. -/
def OnCourse (g : History Machine) : Prop := g.headState = course g.commits

namespace OnCourse

variable {g : History Machine}

theorem reset (g : History Machine) : OnCourse (g.reset .initial) := by
  simp [OnCourse, History.headState, History.reset, course]

theorem commit (g : History Machine) : OnCourse (g.commit (course (g.commits + 1))) :=
  g.headState_commit _

theorem sameStates {f : History Machine} (h : OnCourse g) (hs : History.SameStates g f) :
    OnCourse f := by
  rw [OnCourse, hs.headState, hs.commits]
  exact h

theorem tick (h : OnCourse g) : OnCourse (g.modifyCurrent Machine.tick) := by
  have hpos : 0 < g.capacity := g.slots_pos
  rw [OnCourse, ← History.stateBehind_zero, History.stateBehind_modifyCurrent _ _ hpos,
    History.stateBehind_zero, h]
  split
  · exact (regular_course g.commits).tick
  · rfl

end OnCourse

end Demo

namespace Interpreter

/-- The demo is in memory and on its course. -/
structure RunsDemo (i : Interpreter) : Prop where
  memory : i.devices.memory = Demo.memory
  newest : Demo.OnCourse i.history

/-- The interpreter, but for its keypad. -/
def keyless (i : Interpreter) : Interpreter :=
  { i with devices := { i.devices with keypad := .idle } }

/-- The operation is about keys. -/
def Operation.onKeys : Operation → Bool
  | .press _ | .hold _ _ => true
  | _ => false

theorem keyless_perform_of_onKeys (i : Interpreter) {op : Operation} (h : op.onKeys = true) :
    (i.perform op).2.keyless = i.keyless := by
  cases op with
  | press key => rfl
  | hold key down => rfl
  | _ => cases h

namespace RunsDemo

variable {i j : Interpreter}

theorem execution (h : RunsDemo i) (hlive : i.history.isReplaying = false) :
    i.execution = ⟨.changed, Demo.course (i.history.commits + 1), i.devices⟩ := by
  have hnewest : i.history.headState = _ := h.newest
  rw [Interpreter.execution, machine_eq_headState hlive, hnewest, h.memory]
  exact Demo.executeWord_course _ _ h.memory

/-- What a step records has nothing to do with the devices. -/
theorem stepOperation (h : RunsDemo i) :
    i.stepOperation = some (if i.history.isReplaying then .forward
      else .commit (Demo.course (i.history.commits + 1))) := by
  cases hr : i.history.isReplaying with
  | true => simp [Interpreter.stepOperation, hr]
  | false => simp [Interpreter.stepOperation, hr, h.execution hr, recordOf]

theorem stepDevices (h : RunsDemo i) : i.stepDevices = i.devices := by
  cases hr : i.history.isReplaying with
  | true => simp [Interpreter.stepDevices, hr]
  | false => simp [Interpreter.stepDevices, hr, h.execution hr]

theorem newest_step (h : RunsDemo i) : Demo.OnCourse (i.history.follow i.stepOperation) := by
  rw [h.stepOperation]
  cases i.history.isReplaying with
  | true => exact h.newest.sameStates i.history.sameStates_forward
  | false => exact .commit i.history

theorem newest_follow (h : RunsDemo i) (op : Operation) :
    Demo.OnCourse (i.history.follow (i.historyOperation op)) := by
  cases op with
  | load rom =>
    simp only [historyOperation]
    split
    · exact .reset i.history
    · exact h.newest
  | reset => exact .reset i.history
  | cycle =>
    simp only [historyOperation]
    split
    · exact h.newest
    · exact h.newest_step
  | tick =>
    simp only [historyOperation]
    split
    · exact h.newest
    · exact h.newest.tick
  | advance =>
    simp only [historyOperation]
    split
    · exact h.newest_step
    · exact h.newest
  | back =>
    simp only [historyOperation]
    split
    · exact h.newest.sameStates i.history.sameStates_back
    · exact h.newest
  | _ => exact h.newest

theorem memory_devicesAfter (h : RunsDemo i) {op : Operation}
    (hop : ∀ rom, op = .load rom → ¬ rom.length ≤ Memory.programLimit) :
    (i.devicesAfter op).memory = Demo.memory := by
  cases op with
  | load rom => simp only [devicesAfter, dif_neg (hop rom rfl), h.memory]
  | reset =>
    simp only [devicesAfter, h.memory]
    rfl
  | cycle => simp only [devicesAfter, h.stepDevices, ite_self, h.memory]
  | advance => simp only [devicesAfter, h.stepDevices, ite_self, h.memory]
  | _ => exact h.memory

/-- Nothing but another program ends the demo. -/
theorem perform (h : RunsDemo i) {op : Operation}
    (hop : ∀ rom, op = .load rom → ¬ rom.length ≤ Memory.programLimit) :
    RunsDemo (i.perform op).2 := by
  rw [perform_eq]
  exact ⟨h.memory_devicesAfter hop, h.newest_follow op⟩

theorem devicesAfter_eq (hi : RunsDemo i) (hj : RunsDemo j)
    (hmemory : i.devices.memory = j.devices.memory)
    (hrandom : i.devices.random = j.devices.random) (op : Operation) :
    (i.devicesAfter op).memory = (j.devicesAfter op).memory ∧
      (i.devicesAfter op).random = (j.devicesAfter op).random := by
  cases op with
  | load rom =>
    simp only [devicesAfter]
    split
    · exact ⟨rfl, hrandom⟩
    · exact ⟨hmemory, hrandom⟩
  | reset => exact ⟨congrArg Memory.reset hmemory, hrandom⟩
  | cycle =>
    simp only [devicesAfter, hi.stepDevices, hj.stepDevices, ite_self]
    exact ⟨hmemory, hrandom⟩
  | advance =>
    simp only [devicesAfter, hi.stepDevices, hj.stepDevices, ite_self]
    exact ⟨hmemory, hrandom⟩
  | _ => exact ⟨hmemory, hrandom⟩

/-- Two interpreters that run the demo and differ in their keypads alone go on to do so. -/
theorem keyless_perform (hi : RunsDemo i) (hj : RunsDemo j) (hij : i.keyless = j.keyless)
    (op : Operation) : (i.perform op).2.keyless = (j.perform op).2.keyless := by
  simp only [keyless, Interpreter.mk.injEq, Devices.mk.injEq, true_and] at hij
  obtain ⟨⟨hmemory, hrandom⟩, hhistory, hdialect, hpaused, hstepped⟩ := hij
  have hasked : i.historyOperation op = j.historyOperation op := by
    cases op <;>
      simp only [historyOperation, hi.stepOperation, hj.stepOperation, hhistory, hpaused, hstepped]
  simp only [perform_eq, keyless, Interpreter.mk.injEq, Devices.mk.injEq, true_and, hasked,
    hhistory, hdialect]
  refine ⟨hi.devicesAfter_eq hj hmemory hrandom op, ?_, ?_⟩
  · cases op <;> simp only [pausedAfter, hpaused]
  · cases op <;> simp only [steppedAfter, hpaused, hstepped]

/-- Leaving out what was done to the keys leaves everything else as it is. -/
theorem keyless_after (hi : RunsDemo i) (hj : RunsDemo j) (hij : i.keyless = j.keyless)
    {ops : List Operation}
    (hops : ∀ rom, .load rom ∈ ops → ¬ rom.length ≤ Memory.programLimit) :
    (i.after ops).keyless = (j.after (ops.filter fun op => !op.onKeys)).keyless := by
  induction ops generalizing i j with
  | nil => exact hij
  | cons op ops ih =>
    have hop : ∀ rom, op = .load rom → ¬ rom.length ≤ Memory.programLimit := by
      rintro rom rfl
      exact hops rom List.mem_cons_self
    have hlater : ∀ rom, .load rom ∈ ops → ¬ rom.length ≤ Memory.programLimit :=
      fun rom hrom => hops rom (List.mem_cons_of_mem op hrom)
    cases hkeys : op.onKeys with
    | true =>
      rw [List.filter_cons_of_neg (by simp [hkeys])]
      exact ih (hi.perform hop) hj ((i.keyless_perform_of_onKeys hkeys).trans hij) hlater
    | false =>
      rw [List.filter_cons_of_pos (by simp [hkeys])]
      exact ih (hi.perform hop) (hj.perform hop) (hi.keyless_perform hj hij op) hlater

/-- Uninterrupted, the demo is at the end of as much of its course as there were cycles. -/
theorem machine_after_cycles (h : RunsDemo i) (hi : Live i) (n : Nat) :
    (i.after (cycles n)).machine = Demo.course (i.history.commits + n) := by
  induction n generalizing i with
  | zero => exact (machine_eq_headState hi.newest).trans h.newest
  | succ n ih =>
    have hop : ∀ rom, Operation.cycle = .load rom → ¬ rom.length ≤ Memory.programLimit := nofun
    have hnext : RunsDemo i.cycle := h.perform hop
    have hcommits : i.step.history.commits = i.history.commits + 1 := by
      rw [step_live hi.newest, h.execution hi.newest]
      rfl
    rw [hi.cycle] at hnext
    rw [after_cycles_succ, hi.cycle, ih hnext hi.step, hcommits, Nat.add_right_comm, Nat.add_assoc]

end RunsDemo

/-- The demo right after it was loaded. -/
def demo (dialect : Dialect) (seed : UInt64) : Interpreter :=
  (new dialect (.ofSeed seed)).after [.load Demo.program]

theorem runsDemo_demo (dialect : Dialect) (seed : UInt64) :
    RunsDemo (demo dialect seed) ∧ Live (demo dialect seed) := by
  rw [demo, after_load (load_fits _ Demo.program_fits)]
  exact ⟨⟨rfl, .reset _⟩, ⟨rfl, rfl⟩⟩

theorem screen_demo (dialect : Dialect) (seed : UInt64) (n : Nat) :
    ((demo dialect seed).after (cycles n)).machine.screen = Demo.screenAfter n := by
  obtain ⟨hdemo, hlive⟩ := runsDemo_demo dialect seed
  have hcommits : (demo dialect seed).history.commits = 0 := by
    rw [demo, after_load (load_fits _ Demo.program_fits)]
    rfl
  rw [hdemo.machine_after_cycles hlive, hcommits, Nat.zero_add]
  exact (Demo.regular_course n).screen

theorem filter_onKeys_cycles (n : Nat) :
    ((cycles n).filter fun op => !op.onKeys) = cycles n := by
  rw [List.filter_eq_self]
  intro op hop
  rw [List.eq_of_mem_replicate hop]
  rfl

theorem screen_demo_held (dialect : Dialect) (seed : UInt64) (key : UInt8) (n : Nat) :
    ((demo dialect seed).after (.hold key true :: cycles n)).machine.screen =
      Demo.screenAfter n := by
  obtain ⟨hdemo, -⟩ := runsDemo_demo dialect seed
  have hload : ∀ rom, .load rom ∈ Operation.hold key true :: cycles n →
      ¬ rom.length ≤ Memory.programLimit := by
    intro rom hrom
    simp [cycles] at hrom
  have hkeys := hdemo.keyless_after hdemo rfl hload
  rw [List.filter_cons_of_neg (by simp [Operation.onKeys]), filter_onKeys_cycles] at hkeys
  rw [← screen_demo dialect seed n]
  exact congrArg (fun i => i.machine.screen) hkeys

/-- Whatever is done with it, short of loading another program, the demo takes no notice of keys:
all but the keypad is as it would be if no key had ever been touched. In particular, a key that is
held all along does not show on the screen, on which there is at last a C and an 8, whatever the
key. -/
theorem demo_takes_no_notice_of_keys (dialect : Dialect) (seed : UInt64) :
    (∀ ops, (∀ rom, .load rom ∈ ops → 3584 < rom.length) →
      ((demo dialect seed).after ops).keyless =
        ((demo dialect seed).after (ops.filter fun op => !op.onKeys)).keyless) ∧
      ∀ key n,
        ((demo dialect seed).after (.hold key true :: cycles n)).machine.screen =
            Demo.screenAfter n ∧
          ((demo dialect seed).after (cycles n)).machine.screen = Demo.screenAfter n := by
  refine ⟨?_, fun key n => ⟨screen_demo_held dialect seed key n, screen_demo dialect seed n⟩⟩
  intro ops hops
  obtain ⟨hdemo, -⟩ := runsDemo_demo dialect seed
  exact hdemo.keyless_after hdemo rfl fun rom hrom => Nat.not_le_of_lt (hops rom hrom)

/-- Keys come and go among cycles, a tick and steps in a pause, and a program that does not fit is
refused; a held 5 does not show. -/
theorem demo_passes_over_five :
    let touched : List Operation := [.hold 5 true, .cycle, .press 5, .tick, .togglePause, .back,
      .hold 0xC true, .advance, .load (List.replicate 3585 0)]
    let untouched : List Operation := [.cycle, .tick, .togglePause, .back, .advance,
      .load (List.replicate 3585 0)]
    (∀ rom, .load rom ∈ touched → 3584 < rom.length) ∧
      ((demo .cosmacVip 7).after touched).keyless =
        ((demo .cosmacVip 7).after untouched).keyless ∧
      ((demo .cosmacVip 7).after (.hold 5 true :: cycles 1000)).machine.screen =
        Demo.screenAfter 11 := by
  intro touched untouched
  have hload : ∀ rom, .load rom ∈ touched → 3584 < rom.length := by
    intro rom hrom
    simp only [touched, List.mem_cons, List.not_mem_nil, reduceCtorEq, false_or, or_false,
      Operation.load.injEq] at hrom
    rw [hrom, List.length_replicate]
    decide
  obtain ⟨hkeyless, hheld⟩ := demo_takes_no_notice_of_keys .cosmacVip 7
  refine ⟨hload, hkeyless touched hload, ?_⟩
  rw [(hheld 5 1000).1, Demo.screenAfter_of_le (by decide)]

/-- There is no telling from the screen that 5 is held. -/
theorem held_five_is_not_drawn :
    ¬ ∃ n, ((demo .modern 0).after (.hold 5 true :: cycles n)).machine.screen ≠
      ((demo .modern 0).after (cycles n)).machine.screen := by
  rintro ⟨n, hn⟩
  exact hn ((screen_demo_held .modern 0 5 n).trans (screen_demo .modern 0 n).symm)

end Interpreter

end Chip8
