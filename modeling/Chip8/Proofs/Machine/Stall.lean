import Chip8.Machine.Execute

namespace Chip8.Machine

/-- The machine cannot get past this instruction, whatever becomes of its timers and the devices. -/
inductive Stalls (m : Machine) : Option Instruction → Prop
  | noInstruction : Stalls m none
  | noCaller (h : m.sp = 0 ∨ m.stack[(m.sp - 1).toNat]? = none) : Stalls m (some .ret)
  | ownTarget {target : Address} (h : m.pc = target.toUInt16) : Stalls m (some (.jump target))
  | noRoom {target : Address} (h : ¬ m.sp.toNat < 16) : Stalls m (some (.call target))
  | noRows {x y : Register} : Stalls m (some (.draw x y 0))

theorem executeWord_some {w : Word} {i : Instruction} (h : Instruction.decode? w = some i)
    (dialect : Dialect) (m : Machine) (d : Devices) :
    m.executeWord dialect d w = m.execute dialect d i := by
  simp only [executeWord, h]

theorem execute_ret {m : Machine} {caller : UInt16} (hsp : m.sp ≠ 0)
    (hcaller : m.stack[(m.sp - 1).toNat]? = some caller) (dialect : Dialect) (d : Devices) :
    m.execute dialect d .ret = ⟨.changed, { m with sp := m.sp - 1, pc := caller }.next, d⟩ := by
  simp only [execute, if_neg hsp, hcaller]

theorem execute_call {m : Machine} (hsp : m.sp.toNat < 16) (dialect : Dialect) (d : Devices)
    (target : Address) :
    m.execute dialect d (.call target) = ⟨.changed, { m with
      stack := m.stack.set m.sp.toNat m.pc, sp := m.sp + 1, pc := target.toUInt16 }, d⟩ := by
  simp only [execute, dif_pos hsp]

theorem execute_waitForKey_none {d : Devices} (h : d.keypad.pending = none) (dialect : Dialect)
    (m : Machine) (x : Register) :
    m.execute dialect d (.waitForKey x) =
      ⟨.unchanged, m, { d with keypad := { d.keypad with waiting := true } }⟩ := by
  simp only [execute, Keypad.poll, h]

theorem execute_waitForKey_some {d : Devices} {key : UInt8} (h : d.keypad.pending = some key)
    (dialect : Dialect) (m : Machine) (x : Register) :
    m.execute dialect d (.waitForKey x) =
      ⟨.changed, (m.setRegister x key).next,
        { d with keypad := { d.keypad with waiting := false, pending := none } }⟩ := by
  simp only [execute, Keypad.poll, h]

/-- Nothing comes of an instruction that the machine cannot get past. -/
theorem Stalls.execute {m : Machine} {i : Instruction} (h : m.Stalls (some i)) (dialect : Dialect)
    (d : Devices) : m.execute dialect d i = ⟨.unchanged, m, d⟩ := by
  cases h with
  | noCaller h =>
    simp only [Machine.execute]
    rcases h with h | h
    · rw [if_pos h]
    · rw [h]
      split <;> rfl
  | ownTarget h => simp only [Machine.execute, if_pos h]
  | noRoom h => simp only [Machine.execute, dif_neg h]
  | noRows => rfl

theorem Stalls.executeWord {m : Machine} {w : Word} (h : m.Stalls (Instruction.decode? w))
    (dialect : Dialect) (d : Devices) : m.executeWord dialect d w = ⟨.unchanged, m, d⟩ := by
  cases hi : Instruction.decode? w with
  | none => simp only [Machine.executeWord, hi]
  | some i =>
    rw [hi] at h
    rw [executeWord_some hi, h.execute]

theorem stalls_or_waits {dialect : Dialect} {m : Machine} {d : Devices} {i : Instruction}
    (h : (m.execute dialect d i).update = .unchanged) :
    m.Stalls (some i) ∨ d.keypad.pending = none ∧ ∃ x, i = .waitForKey x := by
  cases i with
  | ret =>
    refine .inl (.noCaller ?_)
    simp only [execute] at h
    by_cases hsp : m.sp = 0
    · exact .inl hsp
    · rw [if_neg hsp] at h
      cases hcaller : m.stack[(m.sp - 1).toNat]? with
      | none => exact .inr rfl
      | some caller =>
        rw [hcaller] at h
        cases h
  | jump target =>
    refine .inl (.ownTarget ?_)
    simp only [execute] at h
    split at h
    · assumption
    · cases h
  | call target =>
    refine .inl (.noRoom ?_)
    simp only [execute] at h
    split at h
    · cases h
    · assumption
  | draw x y rows =>
    simp only [execute] at h
    split at h
    · rename_i hrows
      subst hrows
      exact .inl .noRows
    · cases h
  | waitForKey x =>
    cases hp : d.keypad.pending with
    | none => exact .inr ⟨rfl, x, rfl⟩
    | some key =>
      rw [execute_waitForKey_some hp] at h
      cases h
  | _ => cases h

/-- An instruction that is not carried out waits for a key, or the machine cannot get past it. -/
theorem stalls_or_waits_word {dialect : Dialect} {m : Machine} {d : Devices} {w : Word}
    (h : (m.executeWord dialect d w).update = .unchanged) :
    m.Stalls (Instruction.decode? w) ∨
      d.keypad.pending = none ∧ ∃ x, Instruction.decode? w = some (.waitForKey x) := by
  cases hi : Instruction.decode? w with
  | none => exact .inl .noInstruction
  | some i =>
    rw [executeWord_some hi] at h
    rcases stalls_or_waits h with hstalls | ⟨hp, x, rfl⟩
    · exact .inl hstalls
    · exact .inr ⟨hp, x, rfl⟩

/-- An instruction that is not carried out leaves everything as it was. Only a wait for a key may
begin with it, and only if no press has come yet. -/
theorem refused_word_changes_nothing {dialect : Dialect} {m : Machine} {d : Devices} {w : Word}
    (h : (m.executeWord dialect d w).update = .unchanged) :
    let e := m.executeWord dialect d w
    e.machine = m ∧
      e.devices = { d with keypad := { d.keypad with waiting := e.devices.keypad.waiting } } ∧
      (e.devices.keypad.waiting ≠ d.keypad.waiting →
        e.devices.keypad.waiting = true ∧ d.keypad.pending = none ∧
          ∃ x, Instruction.decode? w = some (.waitForKey x)) := by
  intro e
  rcases stalls_or_waits_word h with hstalls | ⟨hpending, x, hx⟩
  · have he : e = ⟨.unchanged, m, d⟩ := hstalls.executeWord dialect d
    rw [he]
    exact ⟨rfl, rfl, fun hne => absurd rfl hne⟩
  · have he : e = ⟨.unchanged, m, { d with keypad := { d.keypad with waiting := true } }⟩ :=
      (executeWord_some hx dialect m d).trans (execute_waitForKey_none hpending dialect m x)
    rw [he]
    exact ⟨rfl, rfl, fun _ => ⟨rfl, hpending, x, hx⟩⟩

/-- A wait that begins while a key is down. -/
theorem wait_begins_while_key_is_down :
    let d : Devices := ⟨.blank, Keypad.idle.setHeld 7 true, .ofSeed 7⟩
    let e := Machine.initial.executeWord .modern d 0xF30A
    e.update = .unchanged ∧ e.machine = .initial ∧
      e.devices = { d with keypad := { d.keypad with waiting := true } } ∧
      d.keypad.waiting = false ∧ d.keypad.isHeld 7 = true ∧ d.keypad.pending = none := by
  intro d e
  have hrefused : e.update = .unchanged := rfl
  have hwaiting : e.devices.keypad.waiting = true := rfl
  obtain ⟨hmachine, hdevices, hbegins⟩ := refused_word_changes_nothing hrefused
  have hidle : d.keypad.waiting = false := rfl
  have hne : e.devices.keypad.waiting ≠ d.keypad.waiting := by
    rw [hwaiting, hidle]
    decide
  obtain ⟨-, hpending, -⟩ := hbegins hne
  refine ⟨hrefused, hmachine, ?_, hidle, by decide, hpending⟩
  rw [← hwaiting]
  exact hdevices

theorem next_ne {m n : Machine} (h : n.pc = m.pc) : n.next ≠ m := by
  intro he
  have hpc : n.pc + 2 = n.pc := (congrArg pc he).trans h.symm
  simp at hpc

theorem skipIf_ne (m : Machine) (skip : Bool) : m.skipIf skip ≠ m := by
  unfold skipIf
  cases skip with
  | true =>
    intro he
    have hpc : m.pc + (2 + 2) = m.pc := (UInt16.add_assoc _ _ _).symm.trans (congrArg pc he)
    simp at hpc
  | false => exact next_ne rfl

theorem pc_arithmetic (dialect : Dialect) (m : Machine) (operation : Arithmetic) (x y : Register) :
    (m.arithmetic dialect operation x y).pc = m.pc := by
  unfold arithmetic
  split <;> rfl

theorem frame_passIndex (dialect : Dialect) (m : Machine) (last : Register) :
    (m.passIndex dialect last).pc = m.pc ∧ (m.passIndex dialect last).sp = m.sp ∧
      (m.passIndex dialect last).stack = m.stack := by
  unfold passIndex
  split <;> exact ⟨rfl, rfl, rfl⟩

theorem frame_loadRegisters (dialect : Dialect) (m : Machine) (memory : Memory) (last : Register) :
    ((m.loadRegisters memory last).passIndex dialect last).pc = m.pc ∧
      ((m.loadRegisters memory last).passIndex dialect last).sp = m.sp ∧
      ((m.loadRegisters memory last).passIndex dialect last).stack = m.stack := by
  have hpass := (m.loadRegisters memory last).frame_passIndex dialect last
  -- Loading is opened on the right alone: to compare the machines would evaluate all registers.
  have hpc : (m.loadRegisters memory last).pc = m.pc := by simp only [loadRegisters]
  have hsp : (m.loadRegisters memory last).sp = m.sp := by simp only [loadRegisters]
  have hstack : (m.loadRegisters memory last).stack = m.stack := by simp only [loadRegisters]
  rwa [hpc, hsp, hstack] at hpass

theorem jumps_of_fixed {dialect : Dialect} {m : Machine} {d : Devices} {i : Instruction}
    (hchanged : (m.execute dialect d i).update = .changed)
    (hfixed : (m.execute dialect d i).machine = m) :
    ∃ base, i = .jumpFromV0 base ∧ base.toUInt16 + (m.register 0).toUInt16 = m.pc := by
  cases i with
  | jumpFromV0 base => exact ⟨base, rfl, congrArg pc hfixed⟩
  | ret =>
    simp only [execute] at hchanged hfixed
    by_cases hsp : m.sp = 0
    · rw [if_pos hsp] at hchanged
      cases hchanged
    · rw [if_neg hsp] at hchanged hfixed
      cases hcaller : m.stack[(m.sp - 1).toNat]? with
      | none =>
        rw [hcaller] at hchanged
        cases hchanged
      | some caller =>
        rw [hcaller] at hfixed
        have hless : m.sp - 1 = m.sp := congrArg sp hfixed
        have hmore : m.sp + 1 = m.sp := by simpa only [hless] using UInt8.sub_add_cancel m.sp 1
        simp at hmore
  | jump target =>
    simp only [execute] at hchanged hfixed
    by_cases hpc : m.pc = target.toUInt16
    · rw [if_pos hpc] at hchanged
      cases hchanged
    · rw [if_neg hpc] at hfixed
      exact absurd (congrArg pc hfixed).symm hpc
  | call target =>
    simp only [execute] at hchanged hfixed
    by_cases hsp : m.sp.toNat < 16
    · rw [dif_pos hsp] at hfixed
      have hmore : m.sp + 1 = m.sp := congrArg sp hfixed
      simp at hmore
    · rw [dif_neg hsp] at hchanged
      cases hchanged
  | skip condition => exact absurd hfixed (m.skipIf_ne _)
  | arithmetic operation x y => exact absurd hfixed (next_ne (m.pc_arithmetic dialect operation x y))
  | draw x y rows =>
    simp only [execute] at hchanged hfixed
    by_cases hrows : rows = 0
    · rw [if_pos hrows] at hchanged
      cases hchanged
    · rw [if_neg hrows] at hfixed
      exact absurd hfixed (next_ne rfl)
  | waitForKey x =>
    cases hp : d.keypad.pending with
    | none =>
      rw [execute_waitForKey_none hp] at hchanged
      cases hchanged
    | some key =>
      rw [execute_waitForKey_some hp] at hfixed
      exact absurd hfixed (next_ne rfl)
  | storeRegisters last => exact absurd hfixed (next_ne (m.frame_passIndex dialect last).1)
  | loadRegisters last =>
    exact absurd hfixed (next_ne (m.frame_loadRegisters dialect d.memory last).1)
  | _ => exact absurd hfixed (next_ne rfl)

/-- Of the instructions that are carried out, all but one leave a mark on the machine: a jump by V0
can go to where it stands. -/
theorem jumps_of_fixed_word {dialect : Dialect} {m : Machine} {d : Devices} {w : Word}
    (hchanged : (m.executeWord dialect d w).update = .changed)
    (hfixed : (m.executeWord dialect d w).machine = m) :
    ∃ base, Instruction.decode? w = some (.jumpFromV0 base) ∧
      base.toUInt16 + (m.register 0).toUInt16 = m.pc := by
  cases hi : Instruction.decode? w with
  | none =>
    simp only [executeWord, hi] at hchanged
    cases hchanged
  | some i =>
    rw [executeWord_some hi] at hchanged hfixed
    obtain ⟨base, rfl, hpc⟩ := jumps_of_fixed hchanged hfixed
    exact ⟨base, rfl, hpc⟩

end Chip8.Machine
