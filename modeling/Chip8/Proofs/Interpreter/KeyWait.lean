import Chip8.Proofs.Interpreter.Standstill

namespace Chip8

namespace Keypad

/-- Nothing waits for a key, and no key is kept. -/
def AtRest (k : Keypad) : Prop := k.waiting = false ∧ k.pending = none

end Keypad

namespace Interpreter

/-- The key that the operation presses, if there is such a key. -/
def Operation.key? : Operation → Option UInt8
  | .press key => if key.toNat < Keypad.keyCount then some key else none
  | _ => none

theorem key?_eq_some {op : Operation} {key : UInt8} (h : op.key? = some key) :
    op = .press key ∧ key ≤ 0xF := by
  cases op with
  | press pressed =>
    simp only [Operation.key?] at h
    split at h
    · rename_i hlt
      cases h
      exact ⟨rfl, UInt8.le_iff_toNat_le.mpr (Nat.le_of_lt_succ hlt)⟩
    · cases h
  | _ => cases h

theorem pending_onKeypad_idle {k : Keypad} (h : k.waiting = false) (op : Operation) :
    (op.onKeypad k).pending = k.pending := by
  cases op with
  | press key => simp [Operation.onKeypad, Keypad.press, h]
  | hold key down =>
    simp only [Operation.onKeypad, Keypad.setHeld]
    split <;> rfl
  | _ => rfl

/-- During a wait the latest press counts. -/
theorem pending_onKeypad {k : Keypad} (h : k.waiting = true) (op : Operation) :
    (op.onKeypad k).pending = op.key?.or k.pending := by
  cases op with
  | press key =>
    simp only [Operation.onKeypad, Keypad.press, Operation.key?, h, Bool.true_and, decide_eq_true_eq]
    split <;> rfl
  | hold key down =>
    simp only [Operation.onKeypad, Keypad.setHeld]
    split <;> rfl
  | _ => rfl

theorem pending_onKeypad_cases {k : Keypad} {op : Operation} {key : UInt8}
    (h : (op.onKeypad k).pending = some key) :
    (k.waiting = true ∧ op.key? = some key) ∨ k.pending = some key := by
  cases hwaiting : k.waiting with
  | false =>
    rw [pending_onKeypad_idle hwaiting] at h
    exact .inr h
  | true =>
    rw [pending_onKeypad hwaiting, Option.or_eq_some_iff] at h
    rcases h with h | ⟨-, h⟩
    · exact .inl ⟨rfl, h⟩
    · exact .inr h

theorem atRest_of_restarts (i : Interpreter) {op : Operation} (h : op.restarts = true) :
    (i.perform op).2.devices.keypad.AtRest := by
  rw [perform_eq]
  cases op with
  | load rom =>
    rw [restarts_load] at h
    simp only [devicesAfter, dif_pos h]
    exact ⟨rfl, rfl⟩
  | reset => exact ⟨rfl, rfl⟩
  | _ => cases h

theorem execution_waiting {i : Interpreter} {op : Operation} {x : Register}
    (hcomputes : i.computes op = true) (hx : i.instruction? = some (.waitForKey x)) :
    i.execution = i.history.headState.execute i.dialect i.devices (.waitForKey x) := by
  rw [execution_newest (isReplaying_of_computes hcomputes)]
  exact Machine.executeWord_some hx _ _ _

/-- The keypad waits only for what the newest state is about to execute, and keeps a key only for
it. -/
structure Truthful (i : Interpreter) : Prop where
  asked : i.devices.keypad.waiting = true → ∃ x, i.instruction? = some (.waitForKey x)
  pressed : ∀ key, i.devices.keypad.pending = some key →
    i.devices.keypad.waiting = true ∧ key ≤ 0xF

namespace Truthful

variable {i : Interpreter}

theorem of_atRest (h : i.devices.keypad.AtRest) : Truthful i := by
  refine ⟨?_, ?_⟩
  · intro hwaiting
    rw [h.1] at hwaiting
    cases hwaiting
  · intro key hkey
    rw [h.2] at hkey
    cases hkey

theorem atRest (h : Truthful i) (hx : ∀ x, i.instruction? ≠ some (.waitForKey x)) :
    i.devices.keypad.AtRest := by
  have hwaiting : i.devices.keypad.waiting = false := by
    rw [← Bool.not_eq_true]
    intro hwaiting
    obtain ⟨x, h⟩ := h.asked hwaiting
    exact hx x h
  refine ⟨hwaiting, ?_⟩
  cases hp : i.devices.keypad.pending with
  | none => rfl
  | some key =>
    have hasked := (h.pressed key hp).1
    rw [hwaiting] at hasked
    cases hasked

/-- Whatever a computation records, the keypad is at rest after it. -/
theorem atRest_of_changed (h : Truthful i) {op : Operation} (hcomputes : i.computes op = true)
    (hchanged : i.execution.update = .changed) : i.execution.devices.keypad.AtRest := by
  by_cases hx : ∃ x, i.instruction? = some (.waitForKey x)
  · obtain ⟨x, hx⟩ := hx
    rw [execution_waiting hcomputes hx] at hchanged ⊢
    cases hp : i.devices.keypad.pending with
    | none =>
      rw [Machine.execute_waitForKey_none hp] at hchanged
      cases hchanged
    | some key =>
      rw [Machine.execute_waitForKey_some hp]
      exact ⟨rfl, rfl⟩
  · rw [not_exists] at hx
    rw [execution_newest (isReplaying_of_computes hcomputes), Machine.keypad_executeWord _ _ _ hx]
    exact h.atRest hx

theorem perform (h : Truthful i) (op : Operation) : Truthful (i.perform op).2 := by
  rcases i.restarts_or_computes_or_idle op with hrestarts | hcomputes | hidle
  · exact .of_atRest (i.atRest_of_restarts hrestarts)
  · rcases computes_cases hcomputes with ⟨hchanged, hdevices, -⟩ | ⟨-, hdevices, hhistory⟩ |
      ⟨hp, hx, hdevices, hhistory⟩
    · apply of_atRest
      rw [hdevices]
      exact h.atRest_of_changed hcomputes hchanged
    · refine ⟨?_, ?_⟩
      · rw [instruction?, hdevices, hhistory]
        exact h.asked
      · rw [hdevices]
        exact h.pressed
    · refine ⟨?_, ?_⟩
      · intro _
        rw [instruction?, hdevices, hhistory]
        exact hx
      · intro key hkey
        rw [hdevices] at hkey
        exact absurd (hp.symm.trans hkey) (Option.some_ne_none key).symm
  · obtain ⟨hs, hkeypad⟩ := hidle.perform
    refine ⟨?_, ?_⟩
    · rw [hkeypad, waiting_onKeypad, hs.instruction?]
      exact h.asked
    · intro key hkey
      rw [hkeypad] at hkey ⊢
      rw [waiting_onKeypad]
      rcases pending_onKeypad_cases hkey with ⟨hwaiting, hpressed⟩ | hkept
      · exact ⟨hwaiting, (key?_eq_some hpressed).2⟩
      · exact h.pressed key hkept

/-- No key outlives a computation. -/
theorem pending_of_computes (h : Truthful i) {op : Operation} (hcomputes : i.computes op = true) :
    (i.perform op).2.devices.keypad.pending = none := by
  rcases computes_cases hcomputes with ⟨hchanged, hdevices, -⟩ | ⟨hstalls, hdevices, -⟩ |
    ⟨hp, -, hdevices, -⟩
  · rw [hdevices]
    exact (h.atRest_of_changed hcomputes hchanged).2
  · rw [hdevices]
    refine (h.atRest ?_).2
    intro x hx
    rw [hx] at hstalls
    cases hstalls
  · rw [hdevices]
    exact hp

end Truthful

theorem Reachable.truthful {i : Interpreter} (h : i.Reachable) : Truthful i :=
  h.invariant (fun _ _ => .of_atRest ⟨rfl, rfl⟩) fun _ op hi => hi.perform op

/-- A computation at a wait for which a key was pressed takes the key and goes on. -/
theorem perform_collects {i : Interpreter} {op : Operation} {x : Register} {key : UInt8}
    (hcomputes : i.computes op = true) (hx : i.instruction? = some (.waitForKey x))
    (hkey : i.devices.keypad.pending = some key) :
    (i.perform op).2.history = i.history.commit (i.history.headState.setRegister x key).next ∧
      (i.perform op).2.devices = { i.devices with
        keypad := { i.devices.keypad with waiting := false, pending := none } } := by
  rw [perform_computes hcomputes, execution_waiting hcomputes hx,
    Machine.execute_waitForKey_some hkey]
  exact ⟨rfl, rfl⟩

/-- A key that is kept was pressed during the wait that is still on. -/
theorem pending_of_press {start : Interpreter} (hstart : start.Reachable)
    (hnone : start.devices.keypad.pending = none) {past : List Operation} {key : UInt8}
    (hkey : (start.reached past).devices.keypad.pending = some key) :
    ∃ later before, past = later ++ .press key :: before ∧
      (start.reached before).devices.keypad.waiting = true ∧
      (∀ op ∈ later, op.restarts = false) ∧
      Standstill (start.reached before) (start.reached past) := by
  induction past with
  | nil => exact absurd (hnone.symm.trans hkey) (Option.some_ne_none key).symm
  | cons op past ih =>
    rw [reached_cons] at hkey ⊢
    have hi : Truthful (start.reached past) := (hstart.after past.reverse).truthful
    rcases (start.reached past).restarts_or_computes_or_idle op with hrestarts | hcomputes | hidle
    · rw [(atRest_of_restarts _ hrestarts).2] at hkey
      cases hkey
    · rw [hi.pending_of_computes hcomputes] at hkey
      cases hkey
    · obtain ⟨hs, hkeypad⟩ := hidle.perform
      rw [hkeypad] at hkey
      rcases pending_onKeypad_cases hkey with ⟨hwaiting, hpressed⟩ | hkept
      · obtain ⟨rfl, -⟩ := key?_eq_some hpressed
        exact ⟨[], past, rfl, hwaiting, by simp, hs⟩
      · obtain ⟨later, before, rfl, hwaiting, hlater, hbefore⟩ := ih hkept
        exact ⟨op :: later, before, rfl, hwaiting, List.forall_mem_cons.mpr ⟨hidle.2, hlater⟩,
          hbefore.trans hs⟩

/-- When the keypad waits, the newest state is about to execute a wait for a key. A key that is kept
was pressed during this very wait. The next computation puts it where the wait wants it, unless
another key comes first; a reset or a load forgets it. -/
theorem wait_latch_tells_truth (dialect : Dialect) (seed : UInt64) (past : List Operation) :
    let start := new dialect (.ofSeed seed)
    let i := start.reached past
    (i.devices.keypad.waiting = true → ∃ x, i.instruction? = some (.waitForKey x)) ∧
    ∀ key, i.devices.keypad.pending = some key →
      i.devices.keypad.waiting = true ∧ key ≤ 0xF ∧
      (∃ later before, past = later ++ .press key :: before ∧
        (start.reached before).devices.keypad.waiting = true ∧
        (∀ op ∈ later, op.restarts = false) ∧ Standstill (start.reached before) i) ∧
      ∀ op,
        (i.computes op = true → ∃ x, i.instruction? = some (.waitForKey x) ∧
          (i.perform op).2.history =
            i.history.commit (i.history.headState.setRegister x key).next ∧
          (i.perform op).2.devices.keypad.AtRest) ∧
        (op.restarts = true → (i.perform op).2.devices.keypad.AtRest) ∧
        (i.Idle op → (i.perform op).2.devices.keypad.pending = op.key?.or (some key)) := by
  intro start i
  have hstart : start.Reachable := ⟨dialect, .ofSeed seed, [], rfl⟩
  have hi : Truthful i := (hstart.after past.reverse).truthful
  refine ⟨hi.asked, ?_⟩
  intro key hkey
  obtain ⟨hwaiting, hle⟩ := hi.pressed key hkey
  refine ⟨hwaiting, hle, pending_of_press hstart rfl hkey, ?_⟩
  intro op
  refine ⟨?_, i.atRest_of_restarts, ?_⟩
  · intro hcomputes
    obtain ⟨x, hx⟩ := hi.asked hwaiting
    obtain ⟨hhistory, hdevices⟩ := perform_collects hcomputes hx hkey
    refine ⟨x, hx, hhistory, ?_⟩
    rw [hdevices]
    exact ⟨rfl, rfl⟩
  · intro hidle
    rw [hidle.perform.2, pending_onKeypad hwaiting, hkey]

/-- The 9 gives way to the 5, which was pressed while an older state was on show. -/
theorem key_reaches_its_wait :
    let past := [.tick, .advance, .press 0x42, .press 5, .tick, .back, .togglePause, .press 9,
      .cycle, .cycle, .load [0x60, 0x05, 0xF3, 0x0A]]
    let i := (new .modern (.ofSeed 7)).reached past
    i.devices.keypad.pending = some 5 ∧ i.devices.keypad.waiting = true ∧
      (∃ x, i.instruction? = some (.waitForKey x)) ∧
      (∃ later before, past = later ++ .press 5 :: before ∧
        ((new .modern (.ofSeed 7)).reached before).devices.keypad.waiting = true ∧
        Standstill ((new .modern (.ofSeed 7)).reached before) i) ∧
      i.computes .advance = true ∧ (i.perform .advance).2.devices.keypad.AtRest ∧
      (i.perform .advance).2.history.headState.register 3 = 5 := by
  intro past
  obtain ⟨hkey, hcomputes, hregister⟩ :
      ((new .modern (.ofSeed 7)).reached past).devices.keypad.pending = some 5 ∧
      ((new .modern (.ofSeed 7)).reached past).computes .advance = true ∧
      (((new .modern (.ofSeed 7)).reached past).perform .advance).2.history.headState.register 3
        = 5 := by
    decide +kernel
  obtain ⟨hasked, hpressed⟩ := wait_latch_tells_truth .modern 7 past
  obtain ⟨hwaiting, -, ⟨later, before, hpast, hbefore, -, hs⟩, hfate⟩ := hpressed 5 hkey
  obtain ⟨x, -, -, hrest⟩ := (hfate .advance).1 hcomputes
  exact ⟨hkey, hwaiting, hasked hwaiting, ⟨later, before, hpast, hbefore, hs⟩, hcomputes, hrest,
    hregister⟩

/-- The operation put the newest state where it is: it recorded it, or started over. -/
def Arrives (i : Interpreter) (op : Operation) : Prop :=
  op.restarts = true ∨ (i.perform op).2.history.commits = i.history.commits + 1

theorem Arrives.atRest {i : Interpreter} {op : Operation} (h : i.Arrives op) (hi : Truthful i) :
    (i.perform op).2.devices.keypad.AtRest := by
  rcases h with hrestarts | hcommits
  · exact i.atRest_of_restarts hrestarts
  · rcases i.restarts_or_computes_or_idle op with hrestarts | hcomputes | hidle
    · exact i.atRest_of_restarts hrestarts
    · rcases computes_cases hcomputes with ⟨hchanged, hdevices, -⟩ | ⟨-, -, hhistory⟩ |
        ⟨-, -, -, hhistory⟩
      · rw [hdevices]
        exact hi.atRest_of_changed hcomputes hchanged
      · rw [hhistory] at hcommits
        exact absurd hcommits.symm (Nat.succ_ne_self _)
      · rw [hhistory] at hcommits
        exact absurd hcommits.symm (Nat.succ_ne_self _)
    · rw [hidle.perform.1.history.commits] at hcommits
      exact absurd hcommits.symm (Nat.succ_ne_self _)

/-- The keypad as a list of operations leaves it of their own accord. -/
def keypadAfter (k : Keypad) (ops : List Operation) : Keypad :=
  ops.foldl (fun k op => op.onKeypad k) k

theorem Throughout.idle {i : Interpreter} {ops : List Operation} (h : i.Throughout Idle ops) :
    Standstill i (i.after ops) ∧
      (i.after ops).devices.keypad = keypadAfter i.devices.keypad ops := by
  induction ops generalizing i with
  | nil => exact ⟨.refl i, rfl⟩
  | cons op ops ih =>
    obtain ⟨hop, hrest⟩ := h
    obtain ⟨hs, hkeypad⟩ := hop.perform
    obtain ⟨hlater, hend⟩ := ih hrest
    refine ⟨hs.trans hlater, ?_⟩
    rw [after_cons, hend, hkeypad]
    rfl

theorem atRest_keypadAfter {k : Keypad} (h : k.AtRest) (ops : List Operation) :
    (keypadAfter k ops).AtRest := by
  induction ops generalizing k with
  | nil => exact h
  | cons op ops ih =>
    apply ih
    exact ⟨(waiting_onKeypad op k).trans h.1, (pending_onKeypad_idle h.1 op).trans h.2⟩

/-- The last of the keys pressed is kept. -/
theorem pending_keypadAfter {k : Keypad} (h : k.waiting = true) (ops : List Operation) :
    (keypadAfter k ops).pending = (ops.filterMap Operation.key?).getLast?.or k.pending := by
  induction ops generalizing k with
  | nil => rfl
  | cons op ops ih =>
    have hnext : (op.onKeypad k).waiting = true := (waiting_onKeypad op k).trans h
    change (keypadAfter (op.onKeypad k) ops).pending = _
    rw [ih hnext, pending_onKeypad h]
    cases hkey : op.key? with
    | none => rw [List.filterMap_cons_none hkey, Option.none_or]
    | some key =>
      rw [List.filterMap_cons_some hkey, List.getLast?_cons, Option.some_or]
      cases (ops.filterMap Operation.key?).getLast? <;> rfl

/-- The program has got no further, waits, and no key was pressed yet. -/
structure Asking (start i : Interpreter) : Prop where
  standstill : Standstill start i
  waiting : i.devices.keypad.waiting = true
  pending : i.devices.keypad.pending = none

theorem Standstill.asks {start i : Interpreter} (h : Standstill start i) {x : Register}
    (hx : start.instruction? = some (.waitForKey x)) (hp : i.devices.keypad.pending = none)
    {op : Operation} (hcomputes : i.computes op = true) : Asking start (i.perform op).2 := by
  have hi : i.instruction? = some (.waitForKey x) := h.instruction?.trans hx
  rw [perform_computes hcomputes, execution_waiting hcomputes hi,
    Machine.execute_waitForKey_none hp]
  exact ⟨h.trans ⟨rfl, rfl, .refl _⟩, rfl, hp⟩

theorem Asking.perform {start i : Interpreter} (h : Asking start i) {x : Register}
    (hx : start.instruction? = some (.waitForKey x)) {op : Operation}
    (hrestarts : op.restarts = false) (hkey : op.key? = none) : Asking start (i.perform op).2 := by
  cases hcomputes : i.computes op with
  | true => exact h.standstill.asks hx h.pending hcomputes
  | false =>
    obtain ⟨hs, hkeypad⟩ := Idle.perform ⟨hcomputes, hrestarts⟩
    refine ⟨h.standstill.trans hs, ?_, ?_⟩
    · rw [hkeypad, waiting_onKeypad]
      exact h.waiting
    · rw [hkeypad, pending_onKeypad h.waiting, hkey]
      exact h.pending

theorem Asking.after {start i : Interpreter} (h : Asking start i) {x : Register}
    (hx : start.instruction? = some (.waitForKey x)) {ops : List Operation}
    (hops : ∀ op ∈ ops, op.restarts = false ∧ op.key? = none) : Asking start (i.after ops) := by
  refine after_invariant (Q := Asking start) ?_ h
  intro j op hop hj
  obtain ⟨hrestarts, hkey⟩ := hops op hop
  exact hj.perform hx hrestarts hkey

theorem pressKey_of_atRest {i : Interpreter} (h : i.devices.keypad.AtRest) (key : UInt8) :
    i.pressKey key = i := by
  simp [pressKey, Keypad.press, h.1]

/-- There are no instructions past the end of memory, so the counter does not wrap. -/
theorem pc_add_two_of_instruction {i : Interpreter} {instruction : Instruction}
    (h : i.instruction? = some instruction) :
    (i.history.headState.pc + 2).toNat = i.history.headState.pc.toNat + 2 := by
  have hlt : i.history.headState.pc.toNat < 4096 := Memory.lt_size_of_decode h
  rw [UInt16.toNat_add]
  exact Nat.mod_eq_of_lt (by simp; omega)

/-- Until the first computation at a wait for a key, presses are lost. From then on nothing happens
until a key is pressed, and the first computation after that goes on with the key pressed last. -/
theorem key_wait_takes_latest_press (i : Interpreter) (op : Operation) (x : Register)
    (early : List Operation) (hi : i.Reachable) (harrives : i.Arrives op)
    (hwaits : (i.perform op).2.instruction? = some (.waitForKey x))
    (hearly : (i.perform op).2.Throughout Idle early) :
    let start := (i.perform op).2
    let asleep := start.after early
    Standstill start asleep ∧ (∀ key, asleep.pressKey key = asleep) ∧
    ∀ first quiet, asleep.computes first = true →
      (∀ op ∈ quiet, op.restarts = false ∧ op.key? = none) →
      let asking := asleep.after (first :: quiet)
      Asking start asking ∧
      ∀ pressed key last, asking.Throughout Idle pressed →
        (pressed.filterMap Operation.key?).getLast? = some key →
        (asking.after pressed).computes last = true →
        let answered := asking.after pressed
        let m := answered.history.headState
        Standstill start answered ∧
        (answered.perform last).2.history =
          answered.history.commit { m with v := m.v.set x.val key x.lt, pc := m.pc + 2 } ∧
        (m.pc + 2).toNat = m.pc.toNat + 2 ∧
        (answered.perform last).2.devices = { answered.devices with
          keypad := { answered.devices.keypad with waiting := false, pending := none } } := by
  intro start asleep
  obtain ⟨hasleep, hkeypad⟩ := hearly.idle
  have hrest : asleep.devices.keypad.AtRest :=
    hkeypad ▸ atRest_keypadAfter (harrives.atRest hi.truthful) early
  refine ⟨hasleep, pressKey_of_atRest hrest, ?_⟩
  intro first quiet hfirst hquiet asking
  have hasking : Asking start asking := (hasleep.asks hwaits hrest.2 hfirst).after hwaits hquiet
  refine ⟨hasking, ?_⟩
  intro pressed key last hpressed hkey hlast answered m
  obtain ⟨hs, hkeys⟩ := hpressed.idle
  have hanswered : Standstill start answered := hasking.standstill.trans hs
  have hpending : answered.devices.keypad.pending = some key := by
    rw [hkeys, pending_keypadAfter hasking.waiting, hkey, Option.some_or]
  have hx : answered.instruction? = some (.waitForKey x) := hanswered.instruction?.trans hwaits
  obtain ⟨hhistory, hdevices⟩ := perform_collects hlast hx hpending
  exact ⟨hanswered, hhistory, pc_add_two_of_instruction hx, hdevices⟩

/-- The 9 comes too early, the 5 gives way to the 7, and 0x42 is no key. -/
theorem key_wait_skips_early_press :
    let i := (new .modern (.ofSeed 7)).after [.load [0x60, 0x05, 0xF3, 0x0A]]
    let early := [.press 9, .togglePause, .back, .advance, .press 9, .tick]
    let quiet := [.press 0x42, .tick, .togglePause, .cycle]
    let pressed := [.press 5, .tick, .hold 5 true, .press 7]
    let asking := ((i.perform .cycle).2.after early).after (.advance :: quiet)
    let answered := asking.after pressed
    i.Arrives .cycle ∧ (i.perform .cycle).2.instruction? = some (.waitForKey 3) ∧
      (i.perform .cycle).2.Throughout Idle early ∧ Asking (i.perform .cycle).2 asking ∧
      asking.Throughout Idle pressed ∧ answered.computes .cycle = true ∧
      (answered.perform .cycle).2.history.commits = 2 ∧
      (answered.perform .cycle).2.history.headState.register 3 = 7 ∧
      (answered.perform .cycle).2.devices.keypad.AtRest := by
  intro i early quiet pressed asking answered
  have harrives : i.Arrives .cycle := .inr (by decide +kernel)
  have hwaits : (i.perform .cycle).2.instruction? = some (.waitForKey 3) := by decide +kernel
  have hearly : (i.perform .cycle).2.Throughout Idle early := by decide +kernel
  have hpressed : asking.Throughout Idle pressed := by decide +kernel
  have hcomputes : answered.computes .cycle = true := by decide +kernel
  obtain ⟨hcommits, hregister⟩ : (answered.perform .cycle).2.history.commits = 2 ∧
      (answered.perform .cycle).2.history.headState.register 3 = 7 := by
    decide +kernel
  obtain ⟨-, -, hlater⟩ := key_wait_takes_latest_press i .cycle 3 early ⟨_, _, _, rfl⟩ harrives
    hwaits hearly
  obtain ⟨hasking, hanswered⟩ := hlater .advance quiet (by decide +kernel) (by decide +kernel)
  obtain ⟨-, -, -, hdevices⟩ := hanswered pressed 7 .cycle hpressed (by decide +kernel) hcomputes
  have hrest : (answered.perform .cycle).2.devices.keypad.AtRest := by
    rw [hdevices]
    exact ⟨rfl, rfl⟩
  exact ⟨harrives, hwaits, hearly, hasking, hpressed, hcomputes, hcommits, hregister, hrest⟩

end Interpreter

end Chip8
