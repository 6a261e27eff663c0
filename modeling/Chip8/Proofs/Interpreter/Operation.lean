import Chip8.Interpreter.Operation
import Chip8.Proofs.History.Ring

namespace Chip8

/-- The history after an operation, if there is one. -/
def History.follow {α : Type} (h : History α) : Option (History.Operation α) → History α
  | some op => (h.perform op).2
  | none => h

namespace Interpreter

deriving instance DecidableEq for Operation

theorem machine_eq_headState {i : Interpreter} (h : i.history.isReplaying = false) :
    i.machine = i.history.headState := by
  rw [← i.history.stateBehind_zero, ← i.history.isReplaying_eq_false_iff.mp h, History.stateBehind_behind]
  rfl

/-- What comes of the instruction that the state on show has arrived at. -/
def execution (i : Interpreter) : Execution :=
  i.machine.executeWord i.dialect i.devices (i.devices.memory.readWord i.machine.pc)

/-- What is recorded of an execution. -/
def recordOf (e : Execution) : Option (History.Operation Machine) :=
  match e.update with
  | .changed => some (.commit e.machine)
  | .unchanged => none

def stepOperation (i : Interpreter) : Option (History.Operation Machine) :=
  if i.history.isReplaying then some .forward else recordOf i.execution

def stepDevices (i : Interpreter) : Devices :=
  if i.history.isReplaying then i.devices else i.execution.devices

theorem step_eq (i : Interpreter) :
    i.step = { i with
      devices := i.stepDevices
      history := i.history.follow i.stepOperation } := by
  unfold step stepOperation stepDevices
  cases hr : i.history.isReplaying with
  | true =>
    obtain ⟨g, hf⟩ : ∃ g, i.history.stepForward? = some g := by
      rw [← Option.isSome_iff_exists, ← Option.ne_none_iff_isSome, ne_eq,
        History.stepForward?_eq_none_iff]
      exact i.history.isReplaying_iff.mp hr
    simp [hf, History.follow, History.perform]
  | false =>
    have hf : i.history.stepForward? = none := by
      simp [History.stepForward?, hr]
    simp only [hf, recordOf]
    change (match i.execution.update with
      | .changed => _
      | .unchanged => _) = _
    cases i.execution.update <;> rfl

theorem step_replaying {i : Interpreter} (h : i.history.isReplaying = true) :
    i.step = { i with history := (i.history.perform .forward).2 } := by
  rw [step_eq, stepDevices, stepOperation, if_pos h, if_pos h]
  rfl

theorem step_live {i : Interpreter} (h : i.history.isReplaying = false) :
    i.step = { i with
      devices := i.execution.devices
      history := i.history.follow (recordOf i.execution) } := by
  rw [step_eq, stepDevices, stepOperation, h]
  rfl

theorem paused_step (i : Interpreter) : i.step.paused = i.paused := by rw [step_eq]

theorem load_fits (i : Interpreter) {rom : List UInt8} (h : rom.length ≤ Memory.programLimit) :
    i.load rom = .ok { i with
      devices := { i.devices with
        memory := ⟨Memory.image rom h, Memory.image rom h⟩, keypad := i.devices.keypad.release }
      history := i.history.reset .initial
      stepped := false } := by
  simp only [load, Memory.load, dif_pos h]
  rfl

theorem load_too_large (i : Interpreter) {rom : List UInt8}
    (h : ¬ rom.length ≤ Memory.programLimit) :
    i.load rom = .error (.tooLarge rom.length Memory.programLimit) := by
  simp only [load, Memory.load, dif_neg h]

theorem perform_back {i : Interpreter} (h : i.paused = true) :
    i.perform .back = (.moved (i.history.behind < i.history.depth),
      { i with history := (i.history.perform .back).2 }) := by
  have hback : i.back? = i.history.stepBack?.map fun history => { i with history } := if_pos h
  simp only [perform, hback, History.perform]
  cases hb : i.history.stepBack? with
  | none =>
    have hn := i.history.stepBack?_eq_none_iff.mp hb
    simp [Nat.not_lt.mpr hn]
  | some g =>
    have hlt := (History.stepBack?_eq_some hb).2.1
    simp [hlt]

theorem perform_advance {i : Interpreter} (h : i.paused = true) :
    i.perform .advance = (.done, { i with stepped := true }.step) := by
  simp only [perform, advance, h, ↓reduceIte]

/-- What an operation asks of the history. -/
def historyOperation (i : Interpreter) : Operation → Option (History.Operation Machine)
  | .load rom => if rom.length ≤ Memory.programLimit then some (.reset .initial) else none
  | .reset => some (.reset .initial)
  | .cycle => if i.paused then none else i.stepOperation
  | .tick => if i.paused && !i.stepped then none else some (.edit Machine.tick)
  | .togglePause => none
  | .advance => if i.paused then i.stepOperation else none
  | .back => if i.paused then some .back else none
  | .press _ => none
  | .hold _ _ => none

def devicesAfter (i : Interpreter) : Operation → Devices
  | .load rom =>
    if h : rom.length ≤ Memory.programLimit then
      { i.devices with
        memory := ⟨Memory.image rom h, Memory.image rom h⟩, keypad := i.devices.keypad.release }
    else i.devices
  | .reset =>
    { i.devices with memory := i.devices.memory.reset, keypad := i.devices.keypad.release }
  | .cycle => if i.paused then i.devices else i.stepDevices
  | .advance => if i.paused then i.stepDevices else i.devices
  | .press key => { i.devices with keypad := i.devices.keypad.press key }
  | .hold key down => { i.devices with keypad := i.devices.keypad.setHeld key down }
  | .tick | .togglePause | .back => i.devices

def pausedAfter (i : Interpreter) : Operation → Bool
  | .togglePause => !i.paused
  | _ => i.paused

def steppedAfter (i : Interpreter) : Operation → Bool
  | .load rom => if rom.length ≤ Memory.programLimit then false else i.stepped
  | .reset | .tick => false
  | .advance => i.paused || i.stepped
  | _ => i.stepped

def answer (i : Interpreter) : Operation → Reply
  | .load rom =>
    if rom.length ≤ Memory.programLimit then .done
    else .refused (.tooLarge rom.length Memory.programLimit)
  | .back => .moved (i.paused && decide (i.history.behind < i.history.depth))
  | _ => .done

theorem perform_eq (i : Interpreter) (op : Operation) :
    i.perform op = (i.answer op,
      { devices := i.devicesAfter op
        history := i.history.follow (i.historyOperation op)
        dialect := i.dialect
        paused := i.pausedAfter op
        stepped := i.steppedAfter op }) := by
  cases op with
  | load rom =>
    simp only [perform]
    by_cases h : rom.length ≤ Memory.programLimit
    · simp only [load_fits i h, answer, devicesAfter, historyOperation, steppedAfter, h, ↓reduceIte,
        ↓reduceDIte]
      rfl
    · simp only [load_too_large i h, answer, devicesAfter, historyOperation, steppedAfter, h,
        ↓reduceIte, ↓reduceDIte]
      rfl
  | cycle =>
    -- Taken apart, so that the flags are constructors and both sides compute.
    obtain ⟨devices, history, dialect, paused, stepped⟩ := i
    cases paused with
    | true => rfl
    | false => exact congrArg (Prod.mk _) (step_eq _)
  | tick =>
    obtain ⟨devices, history, dialect, paused, stepped⟩ := i
    cases paused <;> cases stepped <;> rfl
  | advance =>
    obtain ⟨devices, history, dialect, paused, stepped⟩ := i
    cases paused with
    | true => exact congrArg (Prod.mk _) (step_eq _)
    | false => rfl
  | back =>
    cases hp : i.paused with
    | true =>
      rw [perform_back hp]
      simp [answer, devicesAfter, historyOperation, pausedAfter, steppedAfter, History.follow, hp]
    | false =>
      obtain ⟨devices, history, dialect, paused, stepped⟩ := i
      cases hp
      rfl
  | _ => rfl

theorem history_perform (i : Interpreter) (op : Operation) :
    (i.perform op).2.history = i.history.follow (i.historyOperation op) := by rw [perform_eq]

/-- All that an operation can ask of the history: to move the cursor, to start over, to let the
timers tick, or to record what an instruction that was carried out made of the state on show. -/
theorem historyOperation_eq_some {i : Interpreter} {op : Operation}
    {asked : History.Operation Machine} (h : i.historyOperation op = some asked) :
    asked = .back ∨ asked = .forward ∨ asked = .reset .initial ∨ asked = .edit Machine.tick ∨
      (i.execution.update = .changed ∧ asked = .commit i.execution.machine) := by
  have hstep : i.stepOperation = some asked →
      asked = .forward ∨ i.execution.update = .changed ∧ asked = .commit i.execution.machine := by
    simp only [stepOperation, recordOf]
    cases i.history.isReplaying with
    | true =>
      rintro ⟨⟩
      exact .inl rfl
    | false =>
      cases i.execution.update with
      | changed =>
        rintro ⟨⟩
        exact .inr ⟨rfl, rfl⟩
      | unchanged => rintro ⟨⟩
  cases op with
  | load rom =>
    obtain ⟨-, h⟩ := Option.ite_none_right_eq_some.mp h
    cases h
    exact .inr (.inr (.inl rfl))
  | reset =>
    cases h
    exact .inr (.inr (.inl rfl))
  | cycle =>
    obtain ⟨-, h⟩ := Option.ite_none_left_eq_some.mp h
    rcases hstep h with hforward | hcommit
    · exact .inr (.inl hforward)
    · exact .inr (.inr (.inr (.inr hcommit)))
  | tick =>
    obtain ⟨-, h⟩ := Option.ite_none_left_eq_some.mp h
    cases h
    exact .inr (.inr (.inr (.inl rfl)))
  | advance =>
    obtain ⟨-, h⟩ := Option.ite_none_right_eq_some.mp h
    rcases hstep h with hforward | hcommit
    · exact .inr (.inl hforward)
    · exact .inr (.inr (.inr (.inr hcommit)))
  | back =>
    obtain ⟨-, h⟩ := Option.ite_none_right_eq_some.mp h
    cases h
    exact .inl rfl
  | _ => cases h

/-- Whether an operation starts the record over. A load that is refused does not. -/
def Operation.restarts : Operation → Bool
  | .load rom => rom.length ≤ Memory.programLimit
  | .reset => true
  | _ => false

theorem restarts_load (rom : List UInt8) :
    (Operation.load rom).restarts = true ↔ rom.length ≤ Memory.programLimit := by
  simp [Operation.restarts]

theorem historyOperation_restarts (i : Interpreter) {op : Operation}
    (hrestarts : op.restarts = true) : i.historyOperation op = some (.reset .initial) := by
  cases op with
  | load rom => exact if_pos ((restarts_load rom).mp hrestarts)
  | reset => rfl
  | _ => cases hrestarts

end Interpreter

end Chip8
