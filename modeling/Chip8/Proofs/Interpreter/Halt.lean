import Chip8.Proofs.Interpreter.Standstill

namespace Chip8.Interpreter

open History

/-- The newest state is stuck and waits for nothing. -/
structure Halted (i : Interpreter) : Prop where
  stalls : i.history.headState.Stalls i.instruction?
  waiting : i.devices.keypad.waiting = false

theorem Standstill.halted {i j : Interpreter} (h : Standstill i j) (hi : Halted i)
    (hj : j.devices.keypad.waiting = false) : Halted j := by
  refine ⟨?_, hj⟩
  rw [h.instruction?]
  exact hi.stalls.of_untimed h.history.headState

theorem Halted.perform {i : Interpreter} (h : Halted i) {op : Operation}
    (hop : op.restarts = false) : Standstill i (i.perform op).2 ∧ Halted (i.perform op).2 := by
  suffices hs : Standstill i (i.perform op).2 ∧ (i.perform op).2.devices.keypad.waiting = false from
    ⟨hs.1, hs.1.halted h hs.2⟩
  cases hc : i.computes op with
  | false =>
    obtain ⟨hs, hkeypad⟩ := Idle.perform ⟨hc, hop⟩
    refine ⟨hs, ?_⟩
    rw [hkeypad, waiting_onKeypad]
    exact h.waiting
  | true =>
    have he : i.execution = ⟨.unchanged, i.history.headState, i.devices⟩ := by
      rw [execution_newest (isReplaying_of_computes hc)]
      exact h.stalls.executeWord i.dialect i.devices
    rw [perform_computes hc, he]
    exact ⟨⟨rfl, rfl, .refl _⟩, h.waiting⟩

theorem Halted.after {i : Interpreter} (h : Halted i) {ops : List Operation}
    (hops : ∀ op ∈ ops, op.restarts = false) : Standstill i (i.after ops) ∧ Halted (i.after ops) := by
  refine after_invariant (Q := fun j => Standstill i j ∧ Halted j) ?_ ⟨.refl i, h⟩
  intro j op hop ⟨hs, hj⟩
  obtain ⟨hnext, hhalted⟩ := hj.perform (hops op hop)
  exact ⟨hs.trans hnext, hhalted⟩

theorem halted_of_computes {i : Interpreter} {op : Operation} (hcomputes : i.computes op = true)
    (hcommits : (i.perform op).2.history.commits = i.history.commits)
    (hwaiting : (i.perform op).2.devices.keypad.waiting = false) :
    Halted i := by
  rcases computes_cases hcomputes with ⟨-, -, hhistory⟩ | ⟨hstalls, hdevices, -⟩ |
    ⟨-, -, hdevices, -⟩
  · rw [hhistory] at hcommits
    exact absurd hcommits (Nat.succ_ne_self _)
  · rw [hdevices] at hwaiting
    exact ⟨hstalls, hwaiting⟩
  · rw [hdevices] at hwaiting
    cases hwaiting

/-- Once a computation has come to nothing, and not for want of a key, nothing but a reset or a load
gets the program any further. -/
theorem halt_is_permanent (i : Interpreter) (op : Operation) (ops : List Operation)
    (hcomputes : i.computes op = true)
    (hcommits : (i.perform op).2.history.commits = i.history.commits)
    (hwaiting : (i.perform op).2.devices.keypad.waiting = false)
    (hops : ∀ op ∈ ops, op.restarts = false) :
    let j := (i.perform op).2.after ops
    j.history.commits = i.history.commits ∧
      j.devices.memory = i.devices.memory ∧
      j.devices.random = i.devices.random ∧
      j.history.head = i.history.head ∧
      j.history.depth = i.history.depth ∧
      (∀ k ≤ i.history.depth,
        (j.history.stateBehind k).untimed = (i.history.stateBehind k).untimed) ∧
      j.devices.keypad.waiting = false := by
  intro j
  have hop : op.restarts = false := by
    cases op with
    | load rom => cases hcomputes
    | reset => cases hcomputes
    | _ => rfl
  have hi := halted_of_computes hcomputes hcommits hwaiting
  obtain ⟨hs, hj⟩ := hi.after (List.forall_mem_cons.mpr ⟨hop, hops⟩)
  change Standstill i j at hs
  change Halted j at hj
  refine ⟨hs.history.commits, hs.memory, hs.random, hs.history.head, hs.history.depth, ?_,
    hj.waiting⟩
  intro k hk
  exact hs.history.states k (Nat.lt_of_le_of_lt hk i.history.depth_lt_capacity)

/-- A return with no call to return from, after which the timer still runs down in both states. -/
theorem return_without_call_halts :
    let i := (new .modern (.ofSeed 7)).after
      [.load [0x60, 0x05, 0xF0, 0x15, 0x00, 0xEE], .cycle, .cycle, .togglePause]
    let ops := [.tick, .press 3, .back, .load (List.replicate 3585 0), .advance, .advance,
      .hold 3 true, .tick, .togglePause, .cycle, .cycle, .tick]
    let j := (i.perform .advance).2.after ops
    i.computes .advance = true ∧ (∀ op ∈ ops, op.restarts = false) ∧
      j.history.commits = 2 ∧ j.history.depth = 2 ∧ j.devices.memory = i.devices.memory ∧
      j.devices.random = i.devices.random ∧ j.devices.keypad.waiting = false ∧
      j.history.headState.untimed = i.history.headState.untimed ∧
      (i.history.headState.delay, j.history.headState.delay) = (5, 2) := by
  intro i ops
  obtain ⟨hcomputes, hcommits, hwaiting, hdepth⟩ : i.computes .advance = true ∧
      (i.perform .advance).2.history.commits = i.history.commits ∧
      (i.perform .advance).2.devices.keypad.waiting = false ∧ i.history.depth = 2 := by
    decide +kernel
  obtain ⟨hcount, hdelays⟩ : i.history.commits = 2 ∧
      (i.history.headState.delay,
        ((i.perform .advance).2.after ops).history.headState.delay) = (5, 2) := by
    decide +kernel
  have hops : ∀ op ∈ ops, op.restarts = false := by decide +kernel
  have hhalted := halt_is_permanent i .advance ops hcomputes hcommits hwaiting hops
  rw [hcount, hdepth] at hhalted
  obtain ⟨hkept, hmemory, hrandom, -, hdepths, hstates, hquiet⟩ := hhalted
  have hhead := hstates 0 (Nat.zero_le 2)
  rw [stateBehind_zero, stateBehind_zero] at hhead
  exact ⟨hcomputes, hops, hkept, hdepths, hmemory, hrandom, hquiet, hhead, hdelays⟩

/-- The newest state is about to jump to where V0 points from a base. -/
def jumpsByV0 (i : Interpreter) : Bool :=
  match i.instruction? with
  | some (.jumpFromV0 _) => true
  | _ => false

/-- If the operation computes, then what it computes is the state there is, and not by a jump by V0.
It does not start the record over. -/
def Spins (i : Interpreter) (op : Operation) : Prop :=
  op.restarts = false ∧
    (i.computes op = true → i.execution.machine = i.machine ∧ i.jumpsByV0 = false)

instance (i : Interpreter) (op : Operation) : Decidable (i.Spins op) :=
  inferInstanceAs (Decidable (_ ∧ (_ → _)))

theorem history_of_fixed {i : Interpreter} {op : Operation} (hcomputes : i.computes op = true)
    (hfixed : i.execution.machine = i.machine) :
    (i.perform op).2.history =
      if i.jumpsByV0 then i.history.commit i.machine else i.history := by
  rcases computes_cases hcomputes with ⟨hchanged, -, hhistory⟩ | ⟨hstalls, -, hhistory⟩ |
    ⟨-, ⟨x, hx⟩, -, hhistory⟩
  · have hjumps : i.jumpsByV0 = true := by
      obtain ⟨base, hbase, -⟩ := Machine.jumps_of_fixed_word hchanged hfixed
      rw [machine_eq_headState (isReplaying_of_computes hcomputes)] at hbase
      simp only [jumpsByV0, instruction?, hbase]
    rw [if_pos hjumps, hhistory, hfixed]
  · have hjumps : i.jumpsByV0 = false := by
      unfold jumpsByV0
      generalize i.instruction? = instruction at hstalls
      cases hstalls <;> rfl
    rw [hhistory, hjumps]
    rfl
  · have hjumps : i.jumpsByV0 = false := by simp only [jumpsByV0, hx]
    rw [hhistory, hjumps]
    rfl

theorem Spins.perform {i : Interpreter} {op : Operation} (h : i.Spins op) :
    i.history.SameButTimers (i.perform op).2.history := by
  obtain ⟨hrestarts, hspins⟩ := h
  cases hc : i.computes op with
  | false => exact (Idle.perform ⟨hc, hrestarts⟩).1.history
  | true =>
    obtain ⟨hfixed, hjumps⟩ := hspins hc
    rw [history_of_fixed hc hfixed, hjumps]
    exact .refl _

/-- A computation that reproduces the state is not recorded, unless it is a jump by V0. So a program
that spins in place for however long keeps every state that can be gone back to. -/
theorem spinning_keeps_history (i : Interpreter) :
    (∀ op, i.computes op = true → i.execution.machine = i.machine →
      (i.perform op).2.history =
        if i.jumpsByV0 then i.history.commit i.machine else i.history) ∧
    ∀ ops, i.Throughout Spins ops →
      (i.after ops).history.commits = i.history.commits ∧
        (i.after ops).history.depth = i.history.depth ∧
        i.history.SameButTimers (i.after ops).history := by
  refine ⟨fun op => history_of_fixed, ?_⟩
  intro ops hops
  have hsame : i.history.SameButTimers (i.after ops).history :=
    hops.invariant (Q := fun j => i.history.SameButTimers j.history)
      (fun j op hspins hj => hj.trans hspins.perform) (.refl _)
  exact ⟨hsame.commits, hsame.depth, hsame⟩

/-- A jump to itself, interrupted by ticks and by going back and forth. -/
theorem self_jump_keeps_history :
    let i := (new .modern (.ofSeed 7)).after [.load [0x60, 0x05, 0x12, 0x02], .cycle]
    let ops := [.cycle, .tick, .cycle, .togglePause, .advance, .back, .advance, .advance]
    i.computes .cycle = true ∧ i.execution.machine = i.machine ∧ i.jumpsByV0 = false ∧
      (i.perform .cycle).2.history = i.history ∧
      i.Throughout Spins ops ∧ (i.after ops).history.commits = 1 ∧
      (i.after ops).history.depth = 1 := by
  intro i ops
  obtain ⟨hcomputes, hfixed, hjumps⟩ : i.computes .cycle = true ∧
      i.execution.machine = i.machine ∧ i.jumpsByV0 = false := by
    decide +kernel
  obtain ⟨hcommits, hdepth⟩ : i.history.commits = 1 ∧ i.history.depth = 1 := by decide +kernel
  have hops : i.Throughout Spins ops := by decide +kernel
  obtain ⟨hone, hrun⟩ := spinning_keeps_history i
  have hkept := hone .cycle hcomputes hfixed
  rw [if_neg (by rw [hjumps]; exact Bool.false_ne_true)] at hkept
  obtain ⟨hcount, hdepths, -⟩ := hrun ops hops
  exact ⟨hcomputes, hfixed, hjumps, hkept, hops, hcount.trans hcommits, hdepths.trans hdepth⟩

/-- The jump by V0 to itself computes the state it started from, and that state is recorded. -/
theorem jump_by_v0_to_itself_is_recorded :
    let i := (new .modern (.ofSeed 0)).after [.load [0xB2, 0x00]]
    i.Reachable ∧ i.computes .cycle = true ∧ i.execution.machine = i.machine ∧
      (i.perform .cycle).2.history.commits = i.history.commits + 1 ∧
      (i.perform .cycle).2.history.depth = i.history.depth + 1 := by
  intro i
  have hrecorded : i.computes .cycle = true ∧ i.execution.machine = i.machine ∧
      (i.perform .cycle).2.history.commits = i.history.commits + 1 ∧
      (i.perform .cycle).2.history.depth = i.history.depth + 1 := by
    decide +kernel
  exact ⟨⟨_, _, _, rfl⟩, hrecorded⟩

end Chip8.Interpreter
