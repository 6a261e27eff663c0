import Chip8.Proofs.Interpreter.Run
import Chip8.Proofs.Machine.Bounds

namespace Chip8

namespace History

variable {α : Type}

/-- What lies in the ring was put there by the operation or lay there before. -/
theorem mem_slots_perform {h : History α} {op : Operation α} {a : α}
    (ha : a ∈ (h.perform op).2.slots) :
    a ∈ h.slots ∨ op = .commit a ∨ op = .reset a ∨ ∃ f, op = .edit f ∧ a = f h.currentState := by
  cases op with
  | commit state =>
    rcases Array.mem_or_eq_of_mem_set (w := h.after_lt h.head) ha with hold | rfl
    · exact .inl hold
    · exact .inr (.inl rfl)
  | back =>
    rw [h.sameStates_back.slots] at ha
    exact .inl ha
  | forward =>
    rw [h.sameStates_forward.slots] at ha
    exact .inl ha
  | edit f =>
    rcases Array.mem_or_eq_of_mem_set (w := h.current_lt) ha with hold | rfl
    · exact .inl hold
    · exact .inr (.inr (.inr ⟨f, rfl, rfl⟩))
  | reset initial =>
    rcases Array.mem_or_eq_of_mem_set (w := h.slots_pos) ha with hold | rfl
    · exact .inl hold
    · exact .inr (.inr (.inl rfl))

theorem currentState_mem (h : History α) : h.currentState ∈ h.slots :=
  Array.getElem_mem h.current_lt

end History

namespace Machine

theorem InBounds.executeWord {m : Machine} (h : m.InBounds) {dialect : Dialect} {d : Devices}
    (hchanged : (m.executeWord dialect d (d.memory.readWord m.pc)).update = .changed) :
    (m.executeWord dialect d (d.memory.readWord m.pc)).machine.InBounds := by
  cases hi : Instruction.decode? (d.memory.readWord m.pc) with
  | none =>
    simp only [Machine.executeWord, hi] at hchanged
    cases hchanged
  | some instruction =>
    rw [executeWord_some hi]
    exact h.execute (Memory.lt_size_of_decode hi) dialect d instruction

end Machine

namespace Interpreter

/-- All states in the ring are within bounds, also those that are no longer counted. -/
def InBounds (i : Interpreter) : Prop := ∀ m ∈ i.history.slots, m.InBounds

namespace InBounds

theorem new (dialect : Dialect) (random : Random.Generator) : (new dialect random).InBounds := by
  intro m hm
  obtain ⟨-, rfl⟩ := Array.mem_replicate.mp hm
  exact .initial

theorem perform {i : Interpreter} (h : i.InBounds) (op : Operation) :
    (i.perform op).2.InBounds := by
  have hshown : i.machine.InBounds := h _ i.history.currentState_mem
  unfold Interpreter.InBounds
  rw [history_perform]
  cases hasked : i.historyOperation op with
  | none => exact h
  | some asked =>
    intro m hm
    rcases History.mem_slots_perform hm with hold | rfl | rfl | ⟨f, rfl, rfl⟩
    · exact h m hold
    all_goals
      rcases historyOperation_eq_some hasked with h | h | h | h | ⟨hchanged, h⟩
      all_goals cases h
    · exact hshown.executeWord hchanged
    · exact .initial
    · exact hshown.tick

end InBounds

theorem Reachable.inBounds {i : Interpreter} (h : i.Reachable) : i.InBounds :=
  h.invariant (fun dialect random => .new dialect random) fun _ op hi => hi.perform op

/-- The ring keeps its thousand slots, and its cursors stay on it. No state in it, counted or left
over, has a call stack or a counter out of bounds: while calls are open, a return finds where the
last of them was made, and no instruction makes the counter wrap. -/
theorem reachable_states_in_bounds (i : Interpreter) (hi : i.Reachable) :
    i.history.slots.size = 1000 ∧ i.history.head < 1000 ∧ i.history.current < 1000 ∧
      i.history.behind ≤ i.history.depth ∧ i.position + i.history.behind = i.history.depth ∧
      ∀ m ∈ i.history.slots,
        m.sp.toNat ≤ 16 ∧ m.pc.toNat ≤ 0x10FE ∧ (∀ a ∈ m.stack, a.toNat ≤ 0xFFF) ∧
        m.callers.length = m.sp.toNat ∧
        (m.sp ≠ 0 → ∃ a, m.stack[(m.sp - 1).toNat]? = some a ∧ m.callers.getLast? = some a) ∧
        ∀ dialect d instruction,
          (m.execute dialect d instruction).machine.pc.toNat = m.destination d instruction := by
  have hsize : i.history.slots.size = 1000 := hi.capacity
  have hbehind := hi.behind_le_depth
  refine ⟨hsize, hsize ▸ i.history.head_lt, hsize ▸ i.history.current_lt, hbehind,
    Nat.sub_add_cancel hbehind, ?_⟩
  intro m hm
  have h := hi.inBounds m hm
  refine ⟨h.sp_le, h.pc_le, h.stack_le, h.length_callers, ?_, h.pc_execute⟩
  intro hsp
  obtain ⟨a, -, hslot, hlast⟩ := h.caller hsp
  exact ⟨a, hslot, hlast⟩

/-- In a call, a jump by V0 goes as far past the end of memory as one can. A return from there would
find its way back. -/
theorem jump_past_memory_stays_in_bounds :
    let i := (new .modern (.ofSeed 7)).after
      [.load [0x60, 0xFF, 0x22, 0x06, 0x00, 0x00, 0xBF, 0xFF], .cycle, .cycle, .cycle, .cycle,
        .togglePause, .back, .advance]
    i.Reachable ∧ i.machine ∈ i.history.slots ∧ i.machine.pc.toNat = 0x10FE ∧
      i.machine.callers.length = 1 ∧ i.machine.sp ≠ 0 ∧
      (∃ a, i.machine.stack[(i.machine.sp - 1).toNat]? = some a ∧
        i.machine.callers.getLast? = some a) ∧
      (i.machine.execute .modern i.devices .ret).machine.pc.toNat = 0x204 ∧
      i.position + i.history.behind = 3 := by
  intro i
  have hi : i.Reachable := ⟨_, _, _, rfl⟩
  obtain ⟨hpc, hsp, hdestination, hdepth⟩ : i.machine.pc.toNat = 0x10FE ∧ i.machine.sp = 1 ∧
      i.machine.destination i.devices .ret = 0x204 ∧ i.history.depth = 3 := by
    decide +kernel
  have hne : i.machine.sp ≠ 0 := by
    rw [hsp]
    decide
  obtain ⟨-, -, -, -, hposition, hstates⟩ := reachable_states_in_bounds i hi
  obtain ⟨-, -, -, hlength, hcaller, hexecute⟩ := hstates i.machine i.history.currentState_mem
  rw [hsp] at hlength
  exact ⟨hi, i.history.currentState_mem, hpc, hlength, hne, hcaller hne,
    (hexecute .modern i.devices .ret).trans hdestination, hposition.trans hdepth⟩

end Interpreter

end Chip8
