import Chip8.Machine.Execute

namespace Chip8

namespace Memory

theorem baseline_write (m : Memory) (a : UInt16) (byte : UInt8) :
    (m.write a byte).baseline = m.baseline := by
  unfold write
  split <;> rfl

theorem baseline_writeAll (m : Memory) (a : UInt16) (bytes : List UInt8) :
    (m.writeAll a bytes).baseline = m.baseline := by
  induction bytes generalizing m a with
  | nil => rfl
  | cons byte rest ih => exact (ih _ _).trans (m.baseline_write a byte)

/-- There are no instructions past the end of memory. -/
theorem lt_size_of_decode {memory : Memory} {a : UInt16} {i : Instruction}
    (h : Instruction.decode? (memory.readWord a) = some i) : a.toNat < size := by
  rcases Nat.lt_or_ge a.toNat size with hlt | hge
  · exact hlt
  · rw [readWord, if_neg (Nat.not_lt.mpr hge)] at h
    cases h

end Memory

namespace Machine

theorem register_setRegister (m : Machine) (x : Register) (byte : UInt8) :
    (m.setRegister x byte).register x = byte :=
  Vector.getElem_set_self x.lt

theorem register_setRegister_of_ne (m : Machine) {x y : Register} (h : y ≠ x) (byte : UInt8) :
    (m.setRegister x byte).register y = m.register y :=
  Vector.getElem_set_ne x.lt y.lt fun he => h (Fin.ext he.symm)

/-- All that an instruction can do to the devices: write consecutive bytes, ask for a key or draw a
random number. -/
theorem devices_execute (dialect : Dialect) (m : Machine) (d : Devices) (i : Instruction) :
    (∃ a bytes, (m.execute dialect d i).devices = { d with memory := d.memory.writeAll a bytes }) ∨
      (∃ x, i = .waitForKey x ∧
        (m.execute dialect d i).devices = { d with keypad := d.keypad.poll.2 }) ∨
      ∃ x mask, i = .random x mask ∧
        (m.execute dialect d i).devices = { d with random := d.random.next.2 } := by
  cases i with
  | storeDecimal x => exact .inl ⟨_, _, rfl⟩
  | storeRegisters last => exact .inl ⟨_, _, rfl⟩
  | waitForKey x =>
    refine .inr (.inl ⟨x, rfl, ?_⟩)
    simp only [execute]
    split
    · rename_i h
      rw [h]
    · rename_i h
      rw [h]
  | random x mask => exact .inr (.inr ⟨x, mask, rfl, rfl⟩)
  | ret =>
    refine .inl ⟨0, [], ?_⟩
    simp only [execute]
    split
    · rfl
    · split <;> rfl
  | jump target =>
    refine .inl ⟨0, [], ?_⟩
    simp only [execute]
    split <;> rfl
  | call target =>
    refine .inl ⟨0, [], ?_⟩
    simp only [execute]
    split <;> rfl
  | draw x y rows =>
    refine .inl ⟨0, [], ?_⟩
    simp only [execute]
    split <;> rfl
  | _ => exact .inl ⟨0, [], rfl⟩

/-- Instructions change memory by writing consecutive bytes, if at all. -/
theorem memory_execute (dialect : Dialect) (m : Machine) (d : Devices) (i : Instruction) :
    ∃ a bytes, (m.execute dialect d i).devices.memory = d.memory.writeAll a bytes := by
  rcases m.devices_execute dialect d i with ⟨a, bytes, h⟩ | ⟨x, -, h⟩ | ⟨x, mask, -, h⟩
  · exact ⟨a, bytes, congrArg Devices.memory h⟩
  · refine ⟨0, [], ?_⟩
    rw [h]
    rfl
  · refine ⟨0, [], ?_⟩
    rw [h]
    rfl

/-- Only a wait for a key touches the keypad. -/
theorem keypad_execute (dialect : Dialect) (m : Machine) (d : Devices) {i : Instruction}
    (hi : ∀ x, i ≠ .waitForKey x) : (m.execute dialect d i).devices.keypad = d.keypad := by
  rcases m.devices_execute dialect d i with ⟨a, bytes, h⟩ | ⟨x, hx, -⟩ | ⟨x, mask, -, h⟩
  · rw [h]
  · exact absurd hx (hi x)
  · rw [h]

/-- Only the instruction that is made for it draws a random number. -/
theorem random_execute (dialect : Dialect) (m : Machine) (d : Devices) {i : Instruction}
    (hi : ∀ x mask, i ≠ .random x mask) : (m.execute dialect d i).devices.random = d.random := by
  rcases m.devices_execute dialect d i with ⟨a, bytes, h⟩ | ⟨x, -, h⟩ | ⟨x, mask, hx, -⟩
  · rw [h]
  · rw [h]
  · exact absurd hx (hi x mask)

theorem keypad_executeWord (dialect : Dialect) (m : Machine) (d : Devices) {w : Word}
    (hw : ∀ x, Instruction.decode? w ≠ some (.waitForKey x)) :
    (m.executeWord dialect d w).devices.keypad = d.keypad := by
  unfold executeWord
  cases hi : Instruction.decode? w with
  | none => rfl
  | some i =>
    apply keypad_execute
    rintro x rfl
    exact hw x hi

theorem random_executeWord (dialect : Dialect) (m : Machine) (d : Devices) {w : Word}
    (hw : ∀ x mask, Instruction.decode? w ≠ some (.random x mask)) :
    (m.executeWord dialect d w).devices.random = d.random := by
  unfold executeWord
  cases hi : Instruction.decode? w with
  | none => rfl
  | some i =>
    apply random_execute
    rintro x mask rfl
    exact hw x mask hi

/-- No instruction touches the image that a reset restores. -/
theorem baseline_executeWord (dialect : Dialect) (m : Machine) (d : Devices) (w : Word) :
    (m.executeWord dialect d w).devices.memory.baseline = d.memory.baseline := by
  unfold executeWord
  cases Instruction.decode? w with
  | none => rfl
  | some i =>
    obtain ⟨a, bytes, h⟩ := memory_execute dialect m d i
    simp only [h, Memory.baseline_writeAll]

end Machine

end Chip8
