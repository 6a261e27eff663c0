import Chip8.Proofs.Interpreter.Standstill

namespace Chip8.Interpreter

open History

/-- The register that the operation draws a random number for, and the mask: it computes, and the
newest state is about to execute the instruction that draws. -/
def draw? (i : Interpreter) (op : Operation) : Option (Register × UInt8) :=
  if i.computes op then
    match i.instruction? with
    | some (.random x mask) => some (x, mask)
    | _ => none
  else none

/-- All draws of a run, the latest first. Starting over does not forget any. -/
def draws (start : Interpreter) : List Operation → List (Register × UInt8)
  | [] => []
  | op :: past => ((start.reached past).draw? op).toList ++ draws start past

theorem draw?_eq_some {i : Interpreter} {op : Operation} {x : Register} {mask : UInt8}
    (h : i.draw? op = some (x, mask)) :
    i.computes op = true ∧ i.instruction? = some (.random x mask) := by
  unfold draw? at h
  split at h
  · rename_i hcomputes
    split at h
    · rename_i hinstruction
      cases h
      exact ⟨hcomputes, hinstruction⟩
    · cases h
  · cases h

theorem draw?_eq_none {i : Interpreter} {op : Operation} (h : i.draw? op = none) :
    i.computes op = false ∨ ∀ x mask, i.instruction? ≠ some (.random x mask) := by
  cases hcomputes : i.computes op with
  | false => exact .inl rfl
  | true =>
    refine .inr fun x mask hinstruction => ?_
    simp only [draw?, hcomputes, hinstruction, ↓reduceIte] at h
    cases h

/-- The operation shows a recorded state again instead of computing one. -/
def replays (i : Interpreter) : Operation → Bool
  | .cycle => !i.paused && i.history.isReplaying
  | .advance => i.paused && i.history.isReplaying
  | _ => false

theorem perform_replays {i : Interpreter} {op : Operation} (h : i.replays op = true) :
    i.computes op = false ∧ (i.perform op).2.devices = i.devices ∧
      (i.perform op).2.history = (i.history.perform .forward).2 := by
  rw [perform_eq]
  cases op with
  | cycle =>
    obtain ⟨hp, hr⟩ := Bool.and_eq_true_iff.mp h
    rw [Bool.not_eq_true'] at hp
    simp [computes, devicesAfter, historyOperation, stepDevices, stepOperation, follow, hp, hr]
  | advance =>
    obtain ⟨hp, hr⟩ := Bool.and_eq_true_iff.mp h
    simp [computes, devicesAfter, historyOperation, stepDevices, stepOperation, follow, hp, hr]
  | _ => cases h

theorem computes_of_restarts (i : Interpreter) {op : Operation} (h : op.restarts = true) :
    i.computes op = false := by
  cases op with
  | cycle => cases h
  | advance => cases h
  | _ => rfl

/-- Drawing records the number under the mask and takes one word of the stream. -/
theorem perform_draws {i : Interpreter} {op : Operation} {x : Register} {mask : UInt8}
    (h : i.draw? op = some (x, mask)) :
    (i.perform op).2.history = i.history.commit
        (i.history.headState.setRegister x (i.devices.random.next.1 &&& mask)).next ∧
      (i.perform op).2.devices = { i.devices with random := i.devices.random.next.2 } := by
  obtain ⟨hcomputes, hinstruction⟩ := draw?_eq_some h
  rw [perform_computes hcomputes, execution_newest (isReplaying_of_computes hcomputes),
    Machine.executeWord_some hinstruction]
  exact ⟨rfl, rfl⟩

theorem random_restarts (i : Interpreter) {op : Operation} (h : op.restarts = true) :
    (i.perform op).2.devices.random = i.devices.random := by
  rw [perform_eq]
  cases op with
  | load rom =>
    rw [restarts_load] at h
    simp only [devicesAfter, dif_pos h]
  | reset => rfl
  | _ => cases h

theorem random_of_no_draw {i : Interpreter} {op : Operation} (h : i.draw? op = none) :
    (i.perform op).2.devices.random = i.devices.random := by
  rcases i.restarts_or_computes_or_idle op with hrestarts | hcomputes | hidle
  · exact i.random_restarts hrestarts
  · have hother : ∀ x mask, i.instruction? ≠ some (.random x mask) := by
      rcases draw?_eq_none h with hnot | hother
      · rw [hcomputes] at hnot
        cases hnot
      · exact hother
    rw [perform_computes hcomputes, execution_newest (isReplaying_of_computes hcomputes)]
    exact Machine.random_executeWord _ _ _ hother
  · exact hidle.perform.1.random

/-- The generator counts the draws of a run. -/
theorem random_reached (start : Interpreter) (past : List Operation) :
    (start.reached past).devices.random = { start.devices.random with
      drawn := start.devices.random.drawn + (draws start past).length } := by
  induction past with
  | nil => rfl
  | cons op past ih =>
    rw [reached_cons, draws]
    cases h : (start.reached past).draw? op with
    | none => rw [random_of_no_draw h, ih, Option.toList_none, List.nil_append]
    | some draw =>
      rw [(perform_draws h).2]
      simp only [ih, Random.Generator.next, Option.toList_some, List.singleton_append,
        List.length_cons, Nat.add_assoc]

/-- The state that is newest in the first history is in the second as it was, but for its timers,
unless there is no room for it any more. -/
structure KeepsNewest (h g : History Machine) : Prop where
  commits_le : h.commits ≤ g.commits
  kept : g.commits - h.commits < g.capacity →
    (g.stateBehind (g.commits - h.commits)).untimed = h.headState.untimed

namespace KeepsNewest

variable {h : History Machine} {i : Interpreter}

theorem refl (h : History Machine) : KeepsNewest h h := by
  refine ⟨Nat.le_refl _, fun _ => ?_⟩
  rw [Nat.sub_self, stateBehind_zero]

theorem commit {g : History Machine} (hk : KeepsNewest h g) (m : Machine) :
    KeepsNewest h (g.commit m) := by
  have hle := hk.commits_le
  have hone : (g.commit m).commits - h.commits = g.commits - h.commits + 1 :=
    Nat.sub_add_comm hle
  refine ⟨Nat.le_succ_of_le hle, ?_⟩
  rw [hone, capacity_commit]
  intro hlt
  rw [stateBehind_commit _ _ hlt]
  exact hk.kept (by omega)

theorem sameButTimers {g f : History Machine} (hk : KeepsNewest h g) (hs : SameButTimers g f) :
    KeepsNewest h f := by
  refine ⟨?_, ?_⟩
  · rw [hs.commits]
    exact hk.commits_le
  · rw [hs.commits, hs.capacity]
    intro hlt
    exact (hs.states _ hlt).trans (hk.kept hlt)

theorem perform (hk : KeepsNewest h i.history) {op : Operation} (hop : op.restarts = false) :
    KeepsNewest h (i.perform op).2.history := by
  cases hcomputes : i.computes op with
  | false => exact hk.sameButTimers (Idle.perform ⟨hcomputes, hop⟩).1.history
  | true =>
    rcases computes_cases hcomputes with ⟨-, -, hhistory⟩ | ⟨-, -, hhistory⟩ | ⟨-, -, -, hhistory⟩
    · rw [hhistory]
      exact hk.commit _
    · rwa [hhistory]
    · rwa [hhistory]

theorem after (hk : KeepsNewest h i.history) {ops : List Operation}
    (hops : ∀ op ∈ ops, op.restarts = false) : KeepsNewest h (i.after ops).history :=
  after_invariant (Q := fun j => KeepsNewest h j.history)
    (fun _ op hop hj => hj.perform (hops op hop)) hk

end KeepsNewest

/-- Stepping forward over the state that was newest once shows it again. -/
theorem KeepsNewest.shown {h : History Machine} {i : Interpreter} (hk : KeepsNewest h i.history)
    {op : Operation} (hreplays : i.replays op = true)
    (hbehind : i.history.behind = i.history.commits - h.commits + 1) :
    (i.perform op).2.machine.untimed = h.headState.untimed := by
  obtain ⟨-, -, hhistory⟩ := perform_replays hreplays
  have hlt := i.history.behind_lt_capacity
  have hs := i.history.sameStates_forward
  rw [machine, hhistory, ← stateBehind_behind, behind_forward, hbehind, Nat.add_sub_cancel,
    hs.stateBehind]
  exact hk.kept (by omega)

/-- The generator counts the random instructions that were ever executed, each of which is recorded,
and each gets the next word of the seed's stream. Showing the recorded state again shows that number
again and draws none; neither does starting over. -/
theorem random_drawn_once_per_instruction (dialect : Dialect) (seed : UInt64)
    (past : List Operation) :
    let start := new dialect (.ofSeed seed)
    let i := start.reached past
    let key := Random.Key.ofSeed seed
    let count := (draws start past).length
    i.devices.random = ⟨key, count⟩ ∧
    ∀ op,
      (i.draw? op = none → (i.perform op).2.devices.random = i.devices.random) ∧
      (op.restarts = true ∨ i.replays op = true → i.draw? op = none) ∧
      ∀ x mask, i.draw? op = some (x, mask) →
        let m := i.history.headState
        let byte := (key.word count).toUInt8 &&& mask
        let drawn := (i.perform op).2
        drawn.history = i.history.commit { m with v := m.v.set x.val byte x.lt, pc := m.pc + 2 } ∧
        drawn.devices.random = ⟨key, count + 1⟩ ∧
        ∀ later replay, (∀ op ∈ later, op.restarts = false) →
          let j := drawn.after later
          j.replays replay = true →
          j.history.behind = j.history.commits - drawn.history.commits + 1 →
          (j.perform replay).2.machine.register x = byte ∧
            (j.perform replay).2.devices = j.devices := by
  intro start i key count
  have hrandom : i.devices.random = ⟨key, count⟩ := by
    rw [random_reached]
    exact congrArg (Random.Generator.mk key) (Nat.zero_add _)
  refine ⟨hrandom, fun op => ⟨random_of_no_draw, ?_, ?_⟩⟩
  · intro hop
    have hcomputes : i.computes op = false := by
      rcases hop with hrestarts | hreplays
      · exact i.computes_of_restarts hrestarts
      · exact (perform_replays hreplays).1
    simp only [draw?, hcomputes, Bool.false_eq_true, ↓reduceIte]
  · intro x mask hdraw m byte drawn
    obtain ⟨hhistory, hdevices⟩ := perform_draws hdraw
    rw [hrandom] at hhistory hdevices
    refine ⟨hhistory, congrArg Devices.random hdevices, ?_⟩
    intro later replay hlater j hreplays hbehind
    have hshown := ((KeepsNewest.refl drawn.history).after hlater).shown hreplays hbehind
    have hhead : drawn.history.headState = (m.setRegister x byte).next := by
      rw [hhistory, headState_commit]
      rfl
    rw [hhead] at hshown
    refine ⟨?_, (perform_replays hreplays).2.1⟩
    have hregister := congrArg (fun m => m.register x) hshown
    exact hregister.trans (m.register_setRegister x byte)

/-- The third number of the stream comes after two of another life of the program. It is shown again
after two steps back, the timers having ticked in between. -/
theorem random_goes_on_after_reset :
    let past := [.togglePause, .cycle, .reset, .cycle,
      .load [0xC0, 0xFF, 0xC1, 0x0F, 0x12, 0x00]]
    let drawn := (((new .modern (.ofSeed 7)).reached past).perform .advance).2
    let j := drawn.after [.tick, .back, .back, .cycle, .press 3, .advance]
    draws (new .modern (.ofSeed 7)) past = [(0, 0xFF), (0, 0xFF)] ∧
      ((new .modern (.ofSeed 7)).reached past).draw? .advance = some (1, 0x0F) ∧
      drawn.devices.random.drawn = 3 ∧ j.replays .advance = true ∧
      (j.perform .advance).2.machine.register 1 = 6 ∧
      (j.perform .advance).2.devices = j.devices := by
  intro past drawn j
  obtain ⟨hdraws, hdraw, hreplays⟩ :
      draws (new .modern (.ofSeed 7)) past = [(0, 0xFF), (0, 0xFF)] ∧
      ((new .modern (.ofSeed 7)).reached past).draw? .advance = some (1, 0x0F) ∧
      j.replays .advance = true := by
    decide +kernel
  obtain ⟨-, hops⟩ := random_drawn_once_per_instruction .modern 7 past
  obtain ⟨-, hrandom, hreplay⟩ := (hops .advance).2.2 1 0x0F hdraw
  obtain ⟨hregister, hdevices⟩ := hreplay [.tick, .back, .back, .cycle, .press 3, .advance] .advance
    (by decide +kernel) hreplays (by decide +kernel)
  rw [hdraws] at hrandom hregister
  have hcount : drawn.devices.random.drawn = 3 := by rw [hrandom]; rfl
  have hbyte : ((Random.Key.ofSeed 7).word 2).toUInt8 &&& 0x0F = 6 := by decide +kernel
  exact ⟨hdraws, hdraw, hcount, hreplays, hregister.trans hbyte,
    hdevices⟩

end Chip8.Interpreter
