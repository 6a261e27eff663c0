import Chip8.Proofs.Interpreter.Run

namespace Chip8

namespace Machine

/-- Both timers down by so much, or to zero. -/
def lowered (m : Machine) (n : Nat) : Machine :=
  { m with
    delay := UInt8.ofNat (m.delay.toNat - n)
    sound := UInt8.ofNat (m.sound.toNat - n) }

theorem lowered_zero (m : Machine) : m.lowered 0 = m := by
  simp [lowered]

theorem count_down (timer : UInt8) (n : Nat) :
    (if UInt8.ofNat (timer.toNat - n) = 0 then 0 else UInt8.ofNat (timer.toNat - n) - 1) =
      UInt8.ofNat (timer.toNat - (n + 1)) := by
  have hlt := timer.toNat_lt
  obtain ⟨k, hk⟩ : ∃ k, k = timer.toNat - n := ⟨_, rfl⟩
  rw [← Nat.sub_sub, ← hk]
  cases k with
  | zero => rfl
  | succ k =>
    have hmod : (k + 1) % 256 = k + 1 := Nat.mod_eq_of_lt (by omega)
    have hne : UInt8.ofNat (k + 1) ≠ 0 := by
      intro h
      have := congrArg UInt8.toNat h
      simp only [UInt8.toNat_ofNat'] at this
      change (k + 1) % 256 = 0 at this
      omega
    rw [if_neg hne]
    simp

/-- The stop at zero does not depend on when it is reached. -/
theorem tick_lowered (m : Machine) (n : Nat) : (m.lowered n).tick = m.lowered (n + 1) := by
  unfold tick lowered
  congr 1
  · exact count_down m.delay n
  · exact count_down m.sound n

end Machine

namespace Interpreter

/-- The paused program was stepped, and no tick, reset or load came since. -/
def SingleStepped (start : Interpreter) (past : List Operation) : Prop :=
  ∃ since before, past = since ++ .advance :: before ∧ (start.reached before).paused = true ∧
    ∀ op ∈ since, op ≠ .tick ∧ op.restarts = false

theorem singleStepped_nil (start : Interpreter) : ¬ SingleStepped start [] := by
  rintro ⟨since, before, hpast, -, -⟩
  cases since <;> cases hpast

theorem singleStepped_cons (start : Interpreter) (op : Operation) (past : List Operation) :
    SingleStepped start (op :: past) ↔
      op = .advance ∧ (start.reached past).paused = true ∨
        (op ≠ .tick ∧ op.restarts = false) ∧ SingleStepped start past := by
  constructor
  · rintro ⟨since, before, hpast, hpaused, hsince⟩
    cases since with
    | nil =>
      cases hpast
      exact .inl ⟨rfl, hpaused⟩
    | cons recent since =>
      obtain ⟨rfl, rfl⟩ := List.cons.inj hpast
      have hkept := hsince op List.mem_cons_self
      refine .inr ⟨hkept, since, before, rfl, hpaused, ?_⟩
      intro later hlater
      exact hsince later (List.mem_cons_of_mem op hlater)
  · rintro (⟨rfl, hpaused⟩ | ⟨hkept, since, before, rfl, hpaused, hsince⟩)
    · exact ⟨[], past, rfl, hpaused, by simp⟩
    · refine ⟨op :: since, before, rfl, hpaused, ?_⟩
      intro later hlater
      rcases List.mem_cons.mp hlater with rfl | hlater
      · exact hkept
      · exact hsince later hlater

instance (start : Interpreter) : ∀ past, Decidable (SingleStepped start past)
  | [] => isFalse (singleStepped_nil start)
  | op :: past =>
    have := instDecidableSingleStepped start past
    decidable_of_iff _ (singleStepped_cons start op past).symm

/-- The timers tick in a running program, and once after a step of a paused one. -/
def Effective (start : Interpreter) (past : List Operation) : Prop :=
  (start.reached past).paused = false ∨
    (start.reached past).paused = true ∧ SingleStepped start past

instance (start : Interpreter) (past : List Operation) : Decidable (Effective start past) :=
  inferInstanceAs (Decidable (_ ∨ _ ∧ _))

/-- A state as it was recorded, and the effective ticks that came while it was on show. -/
structure Entry where
  recorded : Machine
  ticks : Nat

def Entry.tick (e : Entry) : Entry := { e with ticks := e.ticks + 1 }

def Entry.state (e : Entry) : Machine := e.recorded.lowered e.ticks

/-- What was recorded since the record last started over, the newest first. -/
def ledger (start : Interpreter) : List Operation → List Entry
  | [] => [⟨start.machine, 0⟩]
  | op :: past =>
    let i := start.reached past
    let next := (i.perform op).2
    if op.restarts then [⟨.initial, 0⟩]
    else if op = .tick then
      if Effective start past then (ledger start past).modify i.history.behind Entry.tick
      else ledger start past
    else if next.history.commits = i.history.commits + 1 then
      ⟨next.machine, 0⟩ :: ledger start past
    else ledger start past

theorem stepped_perform (i : Interpreter) (op : Operation) :
    (i.perform op).2.stepped = true ↔
      op = .advance ∧ i.paused = true ∨
        (op ≠ .tick ∧ op.restarts = false) ∧ i.stepped = true := by
  rw [perform_eq]
  cases op with
  | load rom =>
    by_cases hfits : rom.length ≤ Memory.programLimit <;>
      simp [steppedAfter, Operation.restarts, hfits]
  | _ => simp [steppedAfter, Operation.restarts]

/-- The flag tells what was done. -/
theorem stepped_reached (start : Interpreter) (hstart : start.stepped = false)
    (past : List Operation) :
    (start.reached past).stepped = true ↔ SingleStepped start past := by
  induction past with
  | nil =>
    change start.stepped = true ↔ _
    rw [hstart]
    exact iff_of_false Bool.false_ne_true (singleStepped_nil start)
  | cons op past ih => rw [reached_cons, stepped_perform, singleStepped_cons, ih]

theorem effective_iff (start : Interpreter) (hstart : start.stepped = false)
    (past : List Operation) :
    Effective start past ↔
      ((start.reached past).paused && !(start.reached past).stepped) = false := by
  rw [Effective, ← stepped_reached start hstart past]
  cases (start.reached past).paused <;> cases (start.reached past).stepped <;> simp

theorem stepOperation_cases (i : Interpreter) :
    i.stepOperation = none ∨ i.stepOperation = some .forward ∨
      ∃ m, i.stepOperation = some (.commit m) := by
  simp only [stepOperation, recordOf]
  cases i.history.isReplaying with
  | true => exact .inr (.inl rfl)
  | false =>
    cases i.execution.update with
    | changed => exact .inr (.inr ⟨_, rfl⟩)
    | unchanged => exact .inl rfl

/-- Operations that neither tick nor start over only move in the history or record. -/
theorem historyOperation_cases (i : Interpreter) {op : Operation} (htick : op ≠ .tick)
    (hrestarts : op.restarts = false) :
    i.historyOperation op = some .back ∨ i.historyOperation op = none ∨
      i.historyOperation op = some .forward ∨ ∃ m, i.historyOperation op = some (.commit m) := by
  cases op with
  | load rom =>
    rw [← Bool.not_eq_true, restarts_load] at hrestarts
    exact .inr (.inl (if_neg hrestarts))
  | reset => cases hrestarts
  | cycle =>
    simp only [historyOperation]
    cases i.paused with
    | true => exact .inr (.inl rfl)
    | false => exact .inr i.stepOperation_cases
  | tick => exact absurd rfl htick
  | advance =>
    simp only [historyOperation]
    cases i.paused with
    | true => exact .inr i.stepOperation_cases
    | false => exact .inr (.inl rfl)
  | back =>
    simp only [historyOperation]
    cases i.paused with
    | true => exact .inl rfl
    | false => exact .inr (.inl rfl)
  | _ => exact .inr (.inl rfl)

/-- They leave the states alone or put one in front. -/
theorem states_perform (i : Interpreter) {op : Operation} (htick : op ≠ .tick)
    (hrestarts : op.restarts = false) :
    ((i.perform op).2.history.commits = i.history.commits ∧
        (i.perform op).2.history.states = i.history.states) ∨
      ((i.perform op).2.history.commits = i.history.commits + 1 ∧
        (i.perform op).2.history.states =
          ((i.perform op).2.machine :: i.history.states).take i.history.capacity) := by
  rw [machine, history_perform]
  rcases i.historyOperation_cases htick hrestarts with h | h | h | ⟨m, h⟩
  · have hs := i.history.sameStates_back
    rw [h]
    exact .inl ⟨hs.commits, hs.states⟩
  · rw [h]
    exact .inl ⟨rfl, rfl⟩
  · have hs := i.history.sameStates_forward
    rw [h]
    exact .inl ⟨hs.commits, hs.states⟩
  · have hshown : (i.history.commit m).currentState = m := by
      simp [History.currentState, History.commit]
    have hstates := congrArg Timeline.states (i.history.timeline_commit m)
    rw [h]
    refine .inr ⟨rfl, ?_⟩
    simp only [History.follow, History.perform, hshown]
    exact hstates

theorem map_modify_tick (entries : List Entry) (k : Nat) :
    (entries.modify k Entry.tick).map Entry.state =
      (entries.map Entry.state).modify k Machine.tick := by
  induction entries generalizing k with
  | nil => simp
  | cons e entries ih =>
    cases k with
    | zero =>
      have htick : e.tick.state = e.state.tick := (e.recorded.tick_lowered e.ticks).symm
      simp [htick]
    | succ k => simp [ih]

theorem state_of_first (m : Machine) :
    ([Entry.mk m 0].take History.defaultCapacity).map Entry.state = [m] :=
  congrArg (fun shown => [shown]) m.lowered_zero

theorem tick_of_effective {start : Interpreter} (hstepped : start.stepped = false)
    {past : List Operation} (h : Effective start past) :
    ((start.reached past).perform .tick).2.history =
      (start.reached past).history.modifyCurrent Machine.tick := by
  rw [effective_iff start hstepped] at h
  rw [history_perform, historyOperation, h]
  rfl

theorem tick_of_not_effective {start : Interpreter} (hstepped : start.stepped = false)
    {past : List Operation} (h : ¬ Effective start past) :
    (start.reached past).tick = start.reached past := by
  rw [effective_iff start hstepped, Bool.not_eq_false] at h
  rw [tick, if_pos h]

/-- The ring holds the newest entries of the ledger. -/
theorem states_eq_ledger {start : Interpreter} (hstart : start.Reachable)
    (hstates : start.history.states = [start.machine]) (hstepped : start.stepped = false)
    (past : List Operation) :
    (start.reached past).history.states =
      ((ledger start past).take History.defaultCapacity).map Entry.state := by
  induction past with
  | nil => exact hstates.trans (state_of_first start.machine).symm
  | cons op past ih =>
    have hcapacity : (start.reached past).history.capacity = History.defaultCapacity :=
      (hstart.after past.reverse).capacity
    rw [reached_cons]
    simp only [ledger]
    by_cases hrestarts : op.restarts = true
    · have hreset := (start.reached past).history.timeline_reset Machine.initial
      rw [if_pos hrestarts, history_perform, historyOperation_restarts _ hrestarts, state_of_first]
      exact congrArg Timeline.states hreset
    rw [if_neg hrestarts]
    rw [Bool.not_eq_true] at hrestarts
    by_cases htick : op = .tick
    · subst htick
      rw [if_pos rfl]
      by_cases heffective : Effective start past
      · have hedit := (start.reached past).history.timeline_modifyCurrent Machine.tick
        rw [if_pos heffective, tick_of_effective hstepped heffective, List.take_modify,
          map_modify_tick, ← ih]
        exact congrArg Timeline.states hedit
      · rw [if_neg heffective, ← ih]
        exact congrArg (fun i => i.history.states) (tick_of_not_effective hstepped heffective)
    · rw [if_neg htick]
      rcases (start.reached past).states_perform htick hrestarts with ⟨hn, hs⟩ | ⟨hn, hs⟩
      · rw [if_neg (by omega), hs, ih]
      · have hfirst : (Entry.mk ((start.reached past).perform op).2.machine 0).state =
            ((start.reached past).perform op).2.machine := Machine.lowered_zero _
        rw [if_pos hn, hs, ih, hcapacity, List.map_take, List.map_take, List.map_cons, hfirst]
        rw [List.take_cons (by decide), List.take_cons (by decide), List.take_take]
        rfl

/-- Every state that can still be gone back to is as it was recorded, in all but its timers, and
these have run down by one for each effective tick while it was on show. No other tick does
anything. -/
theorem retained_states_tick_exactly (dialect : Dialect) (random : Random.Generator)
    (past : List Operation) :
    let start := new dialect random
    let i := start.reached past
    (∀ k ≤ i.history.depth, ∃ e, (ledger start past)[k]? = some e ∧
      i.history.stateBehind k = e.recorded.lowered e.ticks) ∧
    (¬ Effective start past → i.tick = i) := by
  intro start i
  have hstart : start.Reachable := ⟨dialect, random, [], rfl⟩
  have hnew : start.history.StandsFor _ _ := History.StandsFor.new Machine.initial
  have hshown : start.machine = .initial := (Option.some.inj hnew.shows.current).symm
  have hstates : start.history.states = [start.machine] := by
    rw [hshown]
    exact congrArg Timeline.states hnew.timeline
  refine ⟨?_, tick_of_not_effective rfl⟩
  intro k hk
  have hk' : k < History.defaultCapacity := by
    have hlt := i.history.depth_lt_capacity
    rw [show i.history.capacity = _ from (hstart.after past.reverse).capacity] at hlt
    exact Nat.lt_of_le_of_lt hk hlt
  have hretained : i.history.states[k]? = some (i.history.stateBehind k) := by
    rw [History.states_getElem?, if_pos hk]
  rw [states_eq_ledger hstart hstates rfl past, List.getElem?_map, List.getElem?_take,
    if_pos hk'] at hretained
  obtain ⟨e, he, hstate⟩ := Option.map_eq_some_iff.mp hretained
  exact ⟨e, he, hstate.symm⟩

/-- A timer set to 5 that ticked once in the running program and once after a single step, when it
was shown again. -/
theorem retained_timer_ticks_twice :
    let start := new .modern (.ofSeed 7)
    let past := [.tick, .back, .advance, .back, .togglePause, .cycle, .tick, .cycle, .cycle,
      .load [0x60, 0x05, 0xF0, 0x15, 0x70, 0x01]]
    let i := start.reached past
    1 ≤ i.history.depth ∧ ¬ Effective start past ∧ i.tick = i ∧
      ∃ e, (ledger start past)[1]? = some e ∧ i.history.stateBehind 1 = e.recorded.lowered e.ticks ∧
        e.recorded.delay = 5 ∧ e.ticks = 2 ∧ (i.history.stateBehind 1).delay = 3 := by
  intro start past i
  obtain ⟨hdepth, hineffective, hentry, hdelay⟩ : 1 ≤ i.history.depth ∧ ¬ Effective start past ∧
      (ledger start past)[1]?.map (fun e => (e.recorded.delay, e.ticks)) = some (5, 2) ∧
      (i.history.stateBehind 1).delay = 3 := by
    decide +kernel
  obtain ⟨hretained, htick⟩ := retained_states_tick_exactly .modern (.ofSeed 7) past
  obtain ⟨e, he, hstate⟩ := hretained 1 hdepth
  rw [he] at hentry
  obtain ⟨hrecorded, hticks⟩ := Prod.mk.inj (Option.some.inj hentry)
  exact ⟨hdepth, hineffective, htick hineffective, e, he, hstate, hrecorded, hticks, hdelay⟩

end Interpreter

end Chip8
