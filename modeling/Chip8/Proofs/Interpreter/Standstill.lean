import Chip8.Proofs.Interpreter.Run
import Chip8.Proofs.Machine.Execute
import Chip8.Proofs.Machine.Stall

namespace Chip8

namespace Machine

/-- All but the timers. -/
def untimed (m : Machine) : Machine := { m with delay := 0, sound := 0 }

theorem untimed_tick (m : Machine) : m.tick.untimed = m.untimed := rfl

theorem Stalls.of_untimed {m n : Machine} {i : Option Instruction} (h : m.Stalls i)
    (hn : n.untimed = m.untimed) : n.Stalls i := by
  have hpc : n.pc = m.pc := show n.untimed.pc = m.untimed.pc by rw [hn]
  have hsp : n.sp = m.sp := show n.untimed.sp = m.untimed.sp by rw [hn]
  have hstack : n.stack = m.stack := show n.untimed.stack = m.untimed.stack by rw [hn]
  cases h with
  | noInstruction => exact .noInstruction
  | noCaller h => exact .noCaller (by rwa [hsp, hstack])
  | ownTarget h => exact .ownTarget (hpc.trans h)
  | noRoom h => exact .noRoom (by rwa [hsp])
  | noRows => exact .noRows

end Machine

namespace History

/-- The second history holds the same states, in all but their timers. -/
structure SameButTimers (h g : History Machine) : Prop where
  capacity : g.capacity = h.capacity
  head : g.head = h.head
  commits : g.commits = h.commits
  states : ∀ k < h.capacity, (g.stateBehind k).untimed = (h.stateBehind k).untimed

namespace SameButTimers

variable {h g : History Machine}

theorem refl (h : History Machine) : SameButTimers h h := ⟨rfl, rfl, rfl, fun _ _ => rfl⟩

theorem trans {f : History Machine} (hs : SameButTimers h g) (hs' : SameButTimers g f) :
    SameButTimers h f := by
  refine ⟨hs'.capacity.trans hs.capacity, hs'.head.trans hs.head, hs'.commits.trans hs.commits, ?_⟩
  intro k hk
  exact (hs'.states k (hs.capacity ▸ hk)).trans (hs.states k hk)

theorem headState (hs : SameButTimers h g) : g.headState.untimed = h.headState.untimed := by
  have hzero := hs.states 0 h.slots_pos
  rwa [stateBehind_zero, stateBehind_zero] at hzero

theorem depth (hs : SameButTimers h g) : g.depth = h.depth := by
  simp only [History.depth, hs.commits, hs.capacity]

end SameButTimers

theorem SameStates.sameButTimers {h g : History Machine} (hs : SameStates h g) :
    SameButTimers h g :=
  ⟨hs.capacity, hs.head, hs.commits, fun k _ => congrArg Machine.untimed (hs.stateBehind k)⟩

theorem sameButTimers_tick (h : History Machine) :
    SameButTimers h (h.modifyCurrent Machine.tick) := by
  refine ⟨h.capacity_modifyCurrent _, rfl, rfl, ?_⟩
  intro k hk
  rw [h.stateBehind_modifyCurrent _ hk]
  split
  · exact Machine.untimed_tick _
  · rfl

end History

namespace Interpreter

open History

/-- The operation takes a step and the newest state is on show. -/
def computes (i : Interpreter) : Operation → Bool
  | .cycle => !i.paused && !i.history.isReplaying
  | .advance => i.paused && !i.history.isReplaying
  | _ => false

/-- What the newest state is about to execute. -/
def instruction? (i : Interpreter) : Option Instruction :=
  Instruction.decode? (i.devices.memory.readWord i.history.headState.pc)

theorem execution_newest {i : Interpreter} (h : i.history.isReplaying = false) :
    i.execution = i.history.headState.executeWord i.dialect i.devices
      (i.devices.memory.readWord i.history.headState.pc) := by
  rw [execution, machine_eq_headState h]

/-- The operation neither computes nor starts the record over. -/
def Idle (i : Interpreter) (op : Operation) : Prop := i.computes op = false ∧ op.restarts = false

instance (i : Interpreter) (op : Operation) : Decidable (i.Idle op) :=
  inferInstanceAs (Decidable (_ ∧ _))

theorem restarts_or_computes_or_idle (i : Interpreter) (op : Operation) :
    op.restarts = true ∨ i.computes op = true ∨ i.Idle op := by
  cases hrestarts : op.restarts with
  | true => exact .inl rfl
  | false =>
    cases hcomputes : i.computes op with
    | true => exact .inr (.inl rfl)
    | false => exact .inr (.inr ⟨hcomputes, hrestarts⟩)

theorem isReplaying_of_computes {i : Interpreter} {op : Operation} (h : i.computes op = true) :
    i.history.isReplaying = false := by
  cases op with
  | cycle => exact Bool.not_eq_true' _ ▸ (Bool.and_eq_true_iff.mp h).2
  | advance => exact Bool.not_eq_true' _ ▸ (Bool.and_eq_true_iff.mp h).2
  | _ => cases h

theorem perform_computes {i : Interpreter} {op : Operation} (h : i.computes op = true) :
    (i.perform op).2 = { i with
      devices := i.execution.devices
      history := i.history.follow (recordOf i.execution)
      stepped := i.steppedAfter op } := by
  have hr := isReplaying_of_computes h
  rw [perform_eq]
  cases op with
  | cycle =>
    have hp : i.paused = false := by simpa [computes, hr] using h
    simp [devicesAfter, historyOperation, pausedAfter, stepDevices, stepOperation, hp, hr]
  | advance =>
    have hp : i.paused = true := by simpa [computes, hr] using h
    simp [devicesAfter, historyOperation, pausedAfter, stepDevices, stepOperation, hp, hr]
  | _ => cases h

/-- What an operation does to the keypad of its own accord. -/
def Operation.onKeypad : Operation → Keypad → Keypad
  | .press key, k => k.press key
  | .hold key down, k => k.setHeld key down
  | _, k => k

theorem waiting_onKeypad (op : Operation) (k : Keypad) : (op.onKeypad k).waiting = k.waiting := by
  cases op with
  | press key =>
    simp only [Operation.onKeypad, Keypad.press]
    split <;> rfl
  | hold key down =>
    simp only [Operation.onKeypad, Keypad.setHeld]
    split <;> rfl
  | _ => rfl

/-- The program has got no further from the first interpreter to the second. -/
structure Standstill (i j : Interpreter) : Prop where
  memory : j.devices.memory = i.devices.memory
  random : j.devices.random = i.devices.random
  history : i.history.SameButTimers j.history

namespace Standstill

variable {i j : Interpreter}

theorem refl (i : Interpreter) : Standstill i i := ⟨rfl, rfl, .refl _⟩

theorem trans {k : Interpreter} (h : Standstill i j) (h' : Standstill j k) : Standstill i k :=
  ⟨h'.memory.trans h.memory, h'.random.trans h.random, h.history.trans h'.history⟩

theorem pc (h : Standstill i j) : j.history.headState.pc = i.history.headState.pc :=
  show j.history.headState.untimed.pc = i.history.headState.untimed.pc by rw [h.history.headState]

theorem instruction? (h : Standstill i j) : j.instruction? = i.instruction? := by
  simp only [Interpreter.instruction?, h.memory, h.pc]

end Standstill

theorem Idle.perform {i : Interpreter} {op : Operation} (h : i.Idle op) :
    Standstill i (i.perform op).2 ∧
      (i.perform op).2.devices.keypad = op.onKeypad i.devices.keypad := by
  obtain ⟨hidle, hrestarts⟩ := h
  have hstep : i.history.isReplaying = true →
      SameButTimers i.history (i.history.follow i.stepOperation) ∧ i.stepDevices = i.devices := by
    intro hr
    rw [stepOperation, stepDevices, hr]
    exact ⟨i.history.sameStates_forward.sameButTimers, rfl⟩
  rw [perform_eq]
  cases op with
  | load rom =>
    rw [← Bool.not_eq_true, restarts_load] at hrestarts
    simp only [devicesAfter, historyOperation, hrestarts, ↓reduceDIte, ↓reduceIte]
    exact ⟨⟨rfl, rfl, .refl _⟩, rfl⟩
  | reset => cases hrestarts
  | cycle =>
    simp only [devicesAfter, historyOperation]
    cases hp : i.paused with
    | true => exact ⟨⟨rfl, rfl, .refl _⟩, rfl⟩
    | false =>
      obtain ⟨hs, hd⟩ := hstep (by simpa [computes, hp] using hidle)
      simp only [Bool.false_eq_true, ↓reduceIte, hd]
      exact ⟨⟨rfl, rfl, hs⟩, rfl⟩
  | tick =>
    simp only [devicesAfter, historyOperation]
    split
    · exact ⟨⟨rfl, rfl, .refl _⟩, rfl⟩
    · exact ⟨⟨rfl, rfl, i.history.sameButTimers_tick⟩, rfl⟩
  | advance =>
    simp only [devicesAfter, historyOperation]
    cases hp : i.paused with
    | true =>
      obtain ⟨hs, hd⟩ := hstep (by simpa [computes, hp] using hidle)
      simp only [↓reduceIte, hd]
      exact ⟨⟨rfl, rfl, hs⟩, rfl⟩
    | false => exact ⟨⟨rfl, rfl, .refl _⟩, rfl⟩
  | back =>
    simp only [devicesAfter, historyOperation]
    cases hp : i.paused with
    | true => exact ⟨⟨rfl, rfl, i.history.sameStates_back.sameButTimers⟩, rfl⟩
    | false => exact ⟨⟨rfl, rfl, .refl _⟩, rfl⟩
  | _ => exact ⟨⟨rfl, rfl, .refl _⟩, rfl⟩

/-- A computation records a new state or comes to nothing, and then either the newest state is stuck
for good or it waits for a key. -/
theorem computes_cases {i : Interpreter} {op : Operation} (h : i.computes op = true) :
    (i.execution.update = .changed ∧ (i.perform op).2.devices = i.execution.devices ∧
        (i.perform op).2.history = i.history.commit i.execution.machine) ∨
      (i.history.headState.Stalls i.instruction? ∧ (i.perform op).2.devices = i.devices ∧
        (i.perform op).2.history = i.history) ∨
      (i.devices.keypad.pending = none ∧ (∃ x, i.instruction? = some (.waitForKey x)) ∧
        (i.perform op).2.devices =
          { i.devices with keypad := { i.devices.keypad with waiting := true } } ∧
        (i.perform op).2.history = i.history) := by
  have he := execution_newest (isReplaying_of_computes h)
  rw [perform_computes h]
  cases hu : i.execution.update with
  | changed => exact .inl ⟨rfl, rfl, by simp only [recordOf, hu, follow, History.perform]⟩
  | unchanged =>
    have hhistory : i.history.follow (recordOf i.execution) = i.history := by
      simp only [recordOf, hu, follow]
    rw [he] at hu hhistory ⊢
    rcases Machine.stalls_or_waits_word hu with hstalls | ⟨hp, x, hx⟩
    · exact .inr (.inl ⟨hstalls, by rw [hstalls.executeWord], hhistory⟩)
    · refine .inr (.inr ⟨hp, ⟨x, hx⟩, ?_, hhistory⟩)
      rw [Machine.executeWord_some hx, Machine.execute_waitForKey_none hp]

end Interpreter

end Chip8
