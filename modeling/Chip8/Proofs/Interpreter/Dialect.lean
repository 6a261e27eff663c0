import Chip8.Proofs.Interpreter.Restart
import Chip8.Proofs.Interpreter.Standstill

namespace Chip8

/-- Two dialects may make different things of the instruction. -/
def Instruction.tellsApart (a b : Dialect) : Instruction → Bool
  | .arithmetic .shiftRight x y => a.shiftUsesVy != b.shiftUsesVy && x != y
  | .arithmetic .shiftLeft x y => a.shiftUsesVy != b.shiftUsesVy && x != y
  | .storeRegisters _ => a.incrementIndex != b.incrementIndex
  | .loadRegisters _ => a.incrementIndex != b.incrementIndex
  | _ => false

namespace Machine

variable {a b : Dialect}

/-- A register shifted into itself is the source in every dialect. -/
theorem shiftSource_eq {x y : Register} (m : Machine)
    (h : (a.shiftUsesVy != b.shiftUsesVy && x != y) = false) :
    (if a.shiftUsesVy then m.register y else m.register x) =
      if b.shiftUsesVy then m.register y else m.register x := by
  rcases Bool.and_eq_false_iff.mp h with hsame | hself
  · rw [bne_eq_false_iff_eq.mp hsame]
  · rw [bne_eq_false_iff_eq.mp hself, ite_self, ite_self]

theorem arithmetic_eq_of_not_tellsApart {operation : Arithmetic} {x y : Register}
    (h : (Instruction.arithmetic operation x y).tellsApart a b = false) (m : Machine) :
    m.arithmetic a operation x y = m.arithmetic b operation x y := by
  cases operation with
  | shiftRight => simp only [arithmetic, Arithmetic.result, m.shiftSource_eq h]
  | shiftLeft => simp only [arithmetic, Arithmetic.result, m.shiftSource_eq h]
  | _ => rfl

theorem passIndex_eq_of_same (h : (a.incrementIndex != b.incrementIndex) = false) (m : Machine)
    (last : Register) : m.passIndex a last = m.passIndex b last := by
  simp only [passIndex, bne_eq_false_iff_eq.mp h]

theorem execute_eq_of_not_tellsApart {i : Instruction} (h : i.tellsApart a b = false)
    (m : Machine) (d : Devices) : m.execute a d i = m.execute b d i := by
  cases i with
  | arithmetic operation x y => simp only [execute, arithmetic_eq_of_not_tellsApart h m]
  | storeRegisters last => simp only [execute, passIndex_eq_of_same h]
  | loadRegisters last => simp only [execute, passIndex_eq_of_same h]
  | _ => rfl

theorem executeWord_eq_of_not_tellsApart {w : Word}
    (h : ∀ i ∈ Instruction.decode? w, i.tellsApart a b = false) (m : Machine) (d : Devices) :
    m.executeWord a d w = m.executeWord b d w := by
  unfold executeWord
  cases hi : Instruction.decode? w with
  | none => rfl
  | some i => exact execute_eq_of_not_tellsApart (h i hi) m d

end Machine

namespace Interpreter

/-- The same interpreter, but for what it makes of some instructions. -/
def speaking (i : Interpreter) (dialect : Dialect) : Interpreter := { i with dialect }

/-- The operation computes an instruction on which the interpreter's dialect and another may
disagree. -/
def Disputed (other : Dialect) (i : Interpreter) (op : Operation) : Prop :=
  i.computes op = true ∧ ∃ instruction ∈ i.instruction?, instruction.tellsApart i.dialect other = true

instance (other : Dialect) (i : Interpreter) (op : Operation) : Decidable (i.Disputed other op) :=
  inferInstanceAs (Decidable (_ ∧ _))

variable {i : Interpreter} {other : Dialect} {op : Operation}

theorem execution_speaking (hcomputes : i.computes op = true) (h : ¬ i.Disputed other op) :
    (i.speaking other).execution = i.execution := by
  have hlive := isReplaying_of_computes hcomputes
  have hagree : ∀ instruction ∈ i.instruction?, instruction.tellsApart i.dialect other = false := by
    intro instruction hi
    rw [← Bool.not_eq_true]
    intro htells
    exact h ⟨hcomputes, instruction, hi, htells⟩
  rw [execution_newest hlive]
  refine (execution_newest (i := i.speaking other) hlive).trans ?_
  exact (Machine.executeWord_eq_of_not_tellsApart hagree _ _).symm

/-- A step that replays takes no notice of the dialect. -/
theorem step_speaking
    (h : i.history.isReplaying = false → (i.speaking other).execution = i.execution) :
    (i.speaking other).stepOperation = i.stepOperation ∧
      (i.speaking other).stepDevices = i.stepDevices := by
  have hlive (hr : ¬ i.history.isReplaying = true) : (i.speaking other).execution = i.execution :=
    h (Bool.not_eq_true _ ▸ hr)
  constructor
  · refine ite_congr rfl (fun _ => rfl) fun hr => ?_
    rw [hlive hr]
  · refine ite_congr rfl (fun _ => rfl) fun hr => ?_
    rw [hlive hr]

theorem parts_speaking (h : ¬ i.Disputed other op) :
    (i.speaking other).historyOperation op = i.historyOperation op ∧
      (i.speaking other).devicesAfter op = i.devicesAfter op := by
  -- Only the two operations that may take a step look at the dialect.
  cases op with
  | cycle =>
    have hstep (hrunning : ¬ i.paused = true) := step_speaking fun hlive =>
      execution_speaking (by simp [computes, hrunning, hlive]) h
    exact ⟨ite_congr rfl (fun _ => rfl) fun hrunning => (hstep hrunning).1,
      ite_congr rfl (fun _ => rfl) fun hrunning => (hstep hrunning).2⟩
  | advance =>
    have hstep (hpaused : i.paused = true) := step_speaking fun hlive =>
      execution_speaking (by simp [computes, hpaused, hlive]) h
    exact ⟨ite_congr rfl (fun hpaused => (hstep hpaused).1) fun _ => rfl,
      ite_congr rfl (fun hpaused => (hstep hpaused).2) fun _ => rfl⟩
  | _ => exact ⟨rfl, rfl⟩

/-- Nothing but a disputed computation brings the dialect to light. -/
theorem perform_speaking (h : ¬ i.Disputed other op) :
    (i.speaking other).perform op = ((i.perform op).1, (i.perform op).2.speaking other) := by
  obtain ⟨hhistory, hdevices⟩ := parts_speaking h
  rw [perform_eq, perform_eq, hhistory, hdevices]
  cases op <;> rfl

theorem performAll_speaking {ops : List Operation}
    (h : i.Throughout (fun j op => ¬ j.Disputed other op) ops) :
    (i.speaking other).performAll ops =
      ((i.performAll ops).1, (i.performAll ops).2.speaking other) := by
  simp only [performAll_eq_runAll]
  induction ops generalizing i with
  | nil => rfl
  | cons op ops ih =>
    obtain ⟨hop, hrest⟩ := h
    simp only [runAll_cons, perform_speaking hop, ih hrest]

/-- As long as nothing is computed on which their dialects may disagree, two interpreters that differ
in their dialects alone answer alike, look alike, and go on to differ in nothing else. -/
theorem dialects_differ_in_disputes_only (i : Interpreter) (other : Dialect)
    (ops : List Operation) (h : i.Throughout (fun j op => ¬ j.Disputed other op) ops) :
    ((i.speaking other).performAll ops).1 = (i.performAll ops).1 ∧
      ∀ past, past <+: ops →
        (i.speaking other).after past = (i.after past).speaking other ∧
        ((i.speaking other).after past).observe = (i.after past).observe ∧
        ∀ radius, ((i.speaking other).after past).memoryView radius =
          (i.after past).memoryView radius := by
  refine ⟨by rw [performAll_speaking h], ?_⟩
  rintro past ⟨later, rfl⟩
  have hpast : (i.speaking other).after past = (i.after past).speaking other :=
    congrArg Prod.snd (performAll_speaking (throughout_append.mp h).1)
  rw [hpast]
  exact ⟨rfl, rfl, fun _ => rfl⟩

/-- A register shifted into itself, a random number, a wait and a rewind over them leave no trace of
the dialect. A shift between two registers does. -/
theorem self_shift_is_undisputed :
    let i := (new .modern (.ofSeed 7)).after
      [.load [0x60, 0x05, 0x80, 0x06, 0xC1, 0xFF, 0xF2, 0x0A, 0x80, 0x16]]
    let ops : List Operation := [.cycle, .cycle, .cycle, .cycle, .press 9, .cycle, .togglePause,
      .back, .back, .tick, .advance, .advance, .togglePause]
    let j := i.speaking .cosmacVip
    i.Throughout (fun k op => ¬ k.Disputed .cosmacVip op) ops ∧
      (i.after ops).machine.register 0 = 2 ∧ (i.after ops).machine.register 2 = 9 ∧
      (j.after ops).history = (i.after ops).history ∧
      (i.after ops).Disputed .cosmacVip .cycle ∧
      (i.after (ops ++ [.cycle])).machine.register 0 = 1 ∧
      (j.after (ops ++ [.cycle])).machine.register 0 ≠ 1 := by
  intro i ops j
  have hundisputed : i.Throughout (fun k op => ¬ k.Disputed .cosmacVip op) ops := by
    decide +kernel
  obtain ⟨-, hpast⟩ := dialects_differ_in_disputes_only i .cosmacVip ops hundisputed
  have hafter : j.after ops = (i.after ops).speaking .cosmacVip :=
    (hpast ops (List.prefix_refl ops)).1
  have hhistory : (j.after ops).history = (i.after ops).history := by
    rw [hafter]
    rfl
  obtain ⟨hshifted, hkey, hdisputed⟩ : (i.after ops).machine.register 0 = 2 ∧
      (i.after ops).machine.register 2 = 9 ∧ (i.after ops).Disputed .cosmacVip .cycle := by
    decide +kernel
  refine ⟨hundisputed, hshifted, hkey, hhistory, hdisputed, ?_⟩
  rw [after_append, after_append, hafter]
  decide +kernel

end Interpreter

end Chip8
