import Chip8.Proofs.Machine.Execute
import Chip8.Proofs.Machine.Stall

namespace Chip8

namespace Machine

/-- What is true of a machine however it came about. -/
structure InBounds (m : Machine) : Prop where
  sp_le : m.sp.toNat ≤ stackDepth
  pc_le : m.pc.toNat ≤ 0x10FE
  stack_le : ∀ a ∈ m.stack, a.toNat ≤ 0xFFF

/-- Where an instruction takes the program counter, in numbers that do not wrap. A return goes past
the call that was opened last. -/
def destination (m : Machine) (d : Devices) : Instruction → Nat
  | .ret =>
    match m.callers.getLast? with
    | some caller => caller.toNat + 2
    | none => m.pc.toNat
  | .jump target => target.val
  | .call target => if m.sp.toNat < stackDepth then target.val else m.pc.toNat
  | .skip condition => if condition.holds m d.keypad then m.pc.toNat + 4 else m.pc.toNat + 2
  | .jumpFromV0 base => base.val + (m.register 0).toNat
  | .draw _ _ rows => if rows = 0 then m.pc.toNat else m.pc.toNat + 2
  | .waitForKey _ => if d.keypad.pending.isSome then m.pc.toNat + 2 else m.pc.toNat
  | _ => m.pc.toNat + 2

theorem toNat_add_two {a : UInt16} (h : a.toNat ≤ 0x10FE) : (a + 2).toNat = a.toNat + 2 := by
  rw [UInt16.toNat_add]
  exact Nat.mod_eq_of_lt (by simp; omega)

theorem toNat_target (target : Address) : target.toUInt16.toNat = target.val :=
  UInt16.toNat_ofNat_of_lt' (Nat.lt_trans target.isLt (by decide))

theorem toNat_jump_target (base : Address) (byte : UInt8) :
    (base.toUInt16 + byte.toUInt16).toNat = base.val + byte.toNat := by
  have hbase := base.isLt
  have hbyte := byte.toNat_lt
  rw [UInt16.toNat_add, toNat_target, UInt8.toNat_toUInt16]
  exact Nat.mod_eq_of_lt (by omega)

theorem toNat_pred {sp : UInt8} (h : sp ≠ 0) : (sp - 1).toNat = sp.toNat - 1 := by
  have hpos : sp.toNat ≠ 0 := fun hzero => h (UInt8.toNat_inj.mp hzero)
  exact UInt8.toNat_sub_of_le sp 1 (UInt8.le_iff_toNat_le.mpr (Nat.one_le_iff_ne_zero.mpr hpos))

theorem length_callers_of_le {m : Machine} (h : m.sp.toNat ≤ stackDepth) :
    m.callers.length = m.sp.toNat := by
  rw [callers, List.length_take, Vector.length_toList]
  exact Nat.min_eq_left h

theorem caller_of_le {m : Machine} (h : m.sp.toNat ≤ stackDepth) (hsp : m.sp ≠ 0) :
    ∃ a ∈ m.stack, m.stack[(m.sp - 1).toNat]? = some a ∧ m.callers.getLast? = some a := by
  have hle : m.sp.toNat ≤ 16 := h
  have hpred := toNat_pred hsp
  have hpos : m.sp.toNat ≠ 0 := fun hzero => hsp (UInt8.toNat_inj.mp hzero)
  have hlt : (m.sp - 1).toNat < 16 := by omega
  have hslot : m.stack[(m.sp - 1).toNat]? = some m.stack[(m.sp - 1).toNat] :=
    Vector.getElem?_eq_getElem hlt
  refine ⟨_, Vector.getElem_mem hlt, hslot, ?_⟩
  rw [callers, List.getLast?_take, if_neg hpos, Vector.getElem?_toList, ← hpred, hslot]
  rfl

namespace InBounds

variable {m : Machine}

theorem initial : Machine.initial.InBounds := by
  refine ⟨by decide, by decide, ?_⟩
  intro a ha
  obtain ⟨-, rfl⟩ := Vector.mem_replicate.mp ha
  decide

theorem tick (h : m.InBounds) : m.tick.InBounds := ⟨h.sp_le, h.pc_le, h.stack_le⟩

theorem length_callers (h : m.InBounds) : m.callers.length = m.sp.toNat :=
  length_callers_of_le h.sp_le

/-- While calls are open, the slot a return reads is there and holds the last of them. -/
theorem caller (h : m.InBounds) (hsp : m.sp ≠ 0) :
    ∃ a ∈ m.stack, m.stack[(m.sp - 1).toNat]? = some a ∧ m.callers.getLast? = some a :=
  caller_of_le h.sp_le hsp

theorem no_caller (hsp : m.sp = 0) : m.callers.getLast? = none := by
  simp [callers, hsp]

end InBounds

/-- Only calls and returns touch the call stack. -/
theorem stack_execute (dialect : Dialect) (m : Machine) (d : Devices) (i : Instruction) :
    ((m.execute dialect d i).machine.sp = m.sp ∧ (m.execute dialect d i).machine.stack = m.stack) ∨
      (i = .ret ∧ m.sp ≠ 0 ∧ (m.execute dialect d i).machine.sp = m.sp - 1 ∧
        (m.execute dialect d i).machine.stack = m.stack) ∨
      ∃ target, i = .call target ∧ ∃ h : m.sp.toNat < 16,
        (m.execute dialect d i).machine.sp = m.sp + 1 ∧
          (m.execute dialect d i).machine.stack = m.stack.set m.sp.toNat m.pc := by
  cases i with
  | ret =>
    by_cases hsp : m.sp = 0
    · rw [Stalls.execute (.noCaller (.inl hsp))]
      exact .inl ⟨rfl, rfl⟩
    · cases hcaller : m.stack[(m.sp - 1).toNat]? with
      | none =>
        rw [Stalls.execute (.noCaller (.inr hcaller))]
        exact .inl ⟨rfl, rfl⟩
      | some caller =>
        rw [execute_ret hsp hcaller]
        exact .inr (.inl ⟨rfl, hsp, rfl, rfl⟩)
  | call target =>
    by_cases hsp : m.sp.toNat < 16
    · rw [execute_call hsp]
      exact .inr (.inr ⟨target, rfl, hsp, rfl, rfl⟩)
    · rw [Stalls.execute (.noRoom hsp)]
      exact .inl ⟨rfl, rfl⟩
  | jump target =>
    simp only [execute]
    split <;> exact .inl ⟨rfl, rfl⟩
  | skip condition =>
    simp only [execute, skipIf]
    split <;> exact .inl ⟨rfl, rfl⟩
  | arithmetic operation x y =>
    simp only [execute, arithmetic]
    split <;> exact .inl ⟨rfl, rfl⟩
  | draw x y rows =>
    simp only [execute]
    split <;> exact .inl ⟨rfl, rfl⟩
  | waitForKey x =>
    simp only [execute]
    split <;> exact .inl ⟨rfl, rfl⟩
  | storeRegisters last => exact .inl (m.frame_passIndex dialect last).2
  | loadRegisters last => exact .inl (m.frame_loadRegisters dialect d.memory last).2
  | _ => exact .inl ⟨rfl, rfl⟩

theorem sp_le_execute {m : Machine} (h : m.sp.toNat ≤ stackDepth) (dialect : Dialect) (d : Devices)
    (i : Instruction) : (m.execute dialect d i).machine.sp.toNat ≤ stackDepth := by
  rcases m.stack_execute dialect d i with ⟨hsp, -⟩ | ⟨-, hne, hsp, -⟩ | ⟨target, -, hlt, hsp, -⟩
  · rw [hsp]
    exact h
  · rw [hsp, toNat_pred hne]
    exact Nat.le_trans (Nat.sub_le _ _) h
  · rw [hsp, UInt8.toNat_add]
    exact Nat.le_trans (Nat.mod_le _ _) hlt

namespace InBounds

variable {m : Machine}

/-- No instruction lets the program counter wrap. -/
theorem pc_execute (h : m.InBounds) (dialect : Dialect) (d : Devices) (i : Instruction) :
    (m.execute dialect d i).machine.pc.toNat = m.destination d i := by
  have hnext : (m.pc + 2).toNat = m.pc.toNat + 2 := toNat_add_two h.pc_le
  cases i with
  | ret =>
    by_cases hsp : m.sp = 0
    · rw [Stalls.execute (.noCaller (.inl hsp)), destination, no_caller hsp]
    · obtain ⟨caller, hmem, hslot, hlast⟩ := h.caller hsp
      have hle := h.stack_le caller hmem
      rw [execute_ret hsp hslot, destination, hlast]
      exact toNat_add_two (Nat.le_trans hle (by decide))
  | jump target =>
    by_cases hpc : m.pc = target.toUInt16
    · rw [Stalls.execute (.ownTarget hpc), hpc]
      exact toNat_target target
    · simp only [execute, if_neg hpc]
      exact toNat_target target
  | call target =>
    by_cases hsp : m.sp.toNat < 16
    · rw [execute_call hsp, destination]
      exact (toNat_target target).trans (if_pos hsp).symm
    · rw [Stalls.execute (.noRoom hsp), destination]
      exact (if_neg hsp).symm
  | skip condition =>
    simp only [execute, destination, skipIf]
    split
    · have hagain : (m.pc + 2 + 2).toNat = (m.pc + 2).toNat + 2 := by
        rw [UInt16.toNat_add, hnext]
        have := h.pc_le
        exact Nat.mod_eq_of_lt (by simp; omega)
      exact hagain.trans (congrArg (· + 2) hnext)
    · exact hnext
  | jumpFromV0 base => exact toNat_jump_target base (m.register 0)
  | arithmetic operation x y =>
    have hpc := m.pc_arithmetic dialect operation x y
    exact (congrArg (fun pc => (pc + 2).toNat) hpc).trans hnext
  | draw x y rows =>
    simp only [execute, destination]
    split
    · rfl
    · exact hnext
  | waitForKey x =>
    cases hp : d.keypad.pending with
    | none =>
      rw [execute_waitForKey_none hp, destination, hp]
      rfl
    | some key =>
      rw [execute_waitForKey_some hp, destination, hp]
      exact hnext
  | storeRegisters last =>
    have hpc := (m.frame_passIndex dialect last).1
    exact (congrArg (fun pc => (pc + 2).toNat) hpc).trans hnext
  | loadRegisters last =>
    have hpc := (m.frame_loadRegisters dialect d.memory last).1
    exact (congrArg (fun pc => (pc + 2).toNat) hpc).trans hnext
  | _ => exact hnext

/-- From within memory, no instruction goes further than a register can add. -/
theorem destination_le (h : m.InBounds) (hpc : m.pc.toNat < Memory.size) (d : Devices)
    (i : Instruction) : m.destination d i ≤ 0x10FE := by
  have hlt : m.pc.toNat < 4096 := hpc
  cases i with
  | ret =>
    simp only [destination]
    by_cases hsp : m.sp = 0
    · rw [no_caller hsp]
      exact h.pc_le
    · obtain ⟨caller, hmem, -, hlast⟩ := h.caller hsp
      have hle := h.stack_le caller hmem
      rw [hlast]
      change caller.toNat + 2 ≤ _
      omega
  | jump target =>
    have htarget := target.isLt
    simp only [destination]
    omega
  | call target =>
    have htarget := target.isLt
    simp only [destination]
    split <;> omega
  | jumpFromV0 base =>
    have hbase := base.isLt
    have hbyte := (m.register 0).toNat_lt
    simp only [destination]
    omega
  | skip condition =>
    simp only [destination]
    split <;> omega
  | draw x y rows =>
    simp only [destination]
    split <;> omega
  | waitForKey x =>
    simp only [destination]
    split <;> omega
  | _ =>
    simp only [destination]
    omega

/-- The bounds outlast every instruction in memory. -/
theorem execute (h : m.InBounds) (hpc : m.pc.toNat < Memory.size) (dialect : Dialect) (d : Devices)
    (i : Instruction) : (m.execute dialect d i).machine.InBounds := by
  refine ⟨sp_le_execute h.sp_le dialect d i, ?_, ?_⟩
  · rw [h.pc_execute]
    exact h.destination_le hpc d i
  · rcases m.stack_execute dialect d i with ⟨-, hstack⟩ | ⟨-, -, -, hstack⟩ |
      ⟨-, -, hroom, -, hstack⟩
    · rw [hstack]
      exact h.stack_le
    · rw [hstack]
      exact h.stack_le
    · rw [hstack]
      intro a ha
      rcases Vector.mem_or_eq_of_mem_set ha with hold | rfl
      · exact h.stack_le a hold
      · exact Nat.le_of_lt_succ hpc

end InBounds

end Machine

end Chip8
