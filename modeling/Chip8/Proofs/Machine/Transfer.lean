import Chip8.Proofs.Machine.Execute
import Chip8.Proofs.Memory

namespace Chip8.Machine

/-- Where the index has a register stored. Addresses go on from 0xFFFF to 0. -/
def addressOf (m : Machine) (r : Register) : Nat := (m.index.toNat + r.val) % 65536

theorem length_take_registers (m : Machine) (last : Register) :
    (m.v.toList.take (last.val + 1)).length = last.val + 1 := by
  rw [List.length_take, Vector.length_toList]
  exact Nat.min_eq_left last.isLt

theorem byteAt_stored (m : Machine) (memory : Memory) {r last : Register} (hr : r ≤ last)
    (hsize : m.addressOf r < Memory.size) :
    (memory.writeAll m.index (m.v.toList.take (last.val + 1))).byteAt (m.addressOf r) =
      m.register r := by
  have hlength := m.length_take_registers last
  have hshort : (m.v.toList.take (last.val + 1)).length ≤ 65536 := by
    rw [hlength]
    exact Nat.le_trans last.isLt (by decide)
  have hinside : r.val < (m.v.toList.take (last.val + 1)).length := by
    rw [hlength]
    exact Nat.lt_succ_of_le hr
  refine (memory.byteAt_writeAll m.index hshort hinside hsize).trans ?_
  rw [List.getElem_take, Vector.getElem_toList]
  rfl

theorem byteAt_not_stored (m : Machine) (memory : Memory) {last : Register} {a : Nat}
    (ha : ∀ r ≤ last, a ≠ m.addressOf r) :
    (memory.writeAll m.index (m.v.toList.take (last.val + 1))).byteAt a = memory.byteAt a := by
  apply Memory.byteAt_writeAll_of_ne
  intro k hk
  rw [length_take_registers] at hk
  exact ha ⟨k, Nat.lt_of_lt_of_le hk last.isLt⟩ (Nat.le_of_lt_succ hk)

theorem register_loadRegisters (m : Machine) (memory : Memory) (last r : Register) :
    (m.loadRegisters memory last).register r =
      if r ≤ last then memory.byteAt (m.addressOf r) else m.register r := by
  rw [addressOf, ← Memory.toNat_add_ofNat, ← Memory.read_eq_byteAt]
  simp only [loadRegisters]
  exact Vector.getElem_ofFn r.isLt

theorem register_passIndex (dialect : Dialect) (m : Machine) (last r : Register) :
    (m.passIndex dialect last).register r = m.register r := by
  unfold passIndex
  split <;> rfl

theorem toNat_index_passIndex (dialect : Dialect) (m : Machine) (last : Register) :
    (m.passIndex dialect last).index.toNat =
      if dialect.incrementIndex then (m.index.toNat + last.val + 1) % 65536
      else m.index.toNat := by
  unfold passIndex
  split
  · exact Memory.toNat_add_ofNat m.index (last.val + 1)
  · rfl

theorem register_load (dialect : Dialect) (m : Machine) (d : Devices) (last r : Register) :
    (m.execute dialect d (.loadRegisters last)).machine.register r =
      if r ≤ last then d.memory.byteAt (m.addressOf r) else m.register r := by
  rw [← register_loadRegisters]
  exact register_passIndex dialect (m.loadRegisters d.memory last) last r

theorem toNat_index_load (dialect : Dialect) (m : Machine) (d : Devices) (last : Register) :
    (m.execute dialect d (.loadRegisters last)).machine.index.toNat =
      if dialect.incrementIndex then (m.index.toNat + last.val + 1) % 65536
      else m.index.toNat := by
  have hindex : (m.loadRegisters d.memory last).index = m.index := by simp only [loadRegisters]
  rw [← hindex]
  exact toNat_index_passIndex dialect (m.loadRegisters d.memory last) last

/-- Registers that were stored are there again after they are loaded through the same index. Those
that the end of memory cut off are zero, and the index moves alike both times. -/
theorem stored_registers_load_back (dialect : Dialect) (m n : Machine) (hindex : n.index = m.index)
    (d e : Devices) (last : Register) :
    let stored := m.execute dialect d (.storeRegisters last)
    let loaded := n.execute dialect { e with memory := stored.devices.memory } (.loadRegisters last)
    stored.update = .changed ∧
      (∀ r ≤ last, m.addressOf r < Memory.size →
        stored.devices.memory.byteAt (m.addressOf r) = m.register r) ∧
      (∀ a, (∀ r ≤ last, a ≠ m.addressOf r) →
        stored.devices.memory.byteAt a = d.memory.byteAt a) ∧
      stored.machine.index.toNat =
        (if dialect.incrementIndex then (m.index.toNat + last.val + 1) % 65536
        else m.index.toNat) ∧
      loaded.update = .changed ∧
      (∀ r ≤ last, loaded.machine.register r =
        if m.addressOf r < Memory.size then m.register r else 0) ∧
      (∀ r, last < r → loaded.machine.register r = n.register r) ∧
      loaded.devices.memory = stored.devices.memory ∧
      loaded.machine.index = stored.machine.index := by
  intro stored loaded
  have haddress (r : Register) : n.addressOf r = m.addressOf r := by
    rw [addressOf, hindex, addressOf]
  have hregister (r : Register) : loaded.machine.register r =
      if r ≤ last then stored.devices.memory.byteAt (m.addressOf r) else n.register r := by
    rw [← haddress]
    exact register_load dialect n _ last r
  have hstored := m.toNat_index_passIndex dialect last
  have hloaded := n.toNat_index_load dialect { e with memory := stored.devices.memory } last
  refine ⟨rfl, fun r hr => m.byteAt_stored d.memory hr, fun a => m.byteAt_not_stored d.memory,
    hstored, rfl, ?_, ?_, rfl, ?_⟩
  · intro r hr
    rw [hregister, if_pos hr]
    by_cases hsize : m.addressOf r < Memory.size
    · rw [if_pos hsize]
      exact m.byteAt_stored d.memory hr hsize
    · rw [if_neg hsize]
      exact Memory.byteAt_of_size_le _ (Nat.le_of_not_lt hsize)
  · intro r hr
    rw [hregister, if_neg (Fin.not_le.mpr hr)]
  · apply UInt16.toNat_inj.mp
    rw [hindex] at hloaded
    exact hloaded.trans hstored.symm

/-- Four registers, of which two fall past the end of memory and two, where addresses start over,
on its first bytes. -/
theorem registers_stored_across_wrap :
    let d : Devices := ⟨.blank, .idle, .ofSeed 7⟩
    let m : Machine := { initial with
      index := 0xFFFE
      v := Vector.ofFn fun r : Register => UInt8.ofNat (r.val + 1) }
    let n : Machine := { initial with index := 0xFFFE, v := Vector.replicate 16 0xAA }
    let stored := m.execute .cosmacVip d (.storeRegisters 3)
    let loaded := n.execute .cosmacVip { d with memory := stored.devices.memory } (.loadRegisters 3)
    n.index = m.index ∧ stored.devices.memory.byteAt 1 = 4 ∧
      stored.devices.memory.byteAt 2 = d.memory.byteAt 2 ∧ stored.machine.index.toNat = 2 ∧
      loaded.machine.register 0 = 0 ∧ loaded.machine.register 3 = 4 ∧
      loaded.machine.register 4 = 0xAA ∧ loaded.machine.index = stored.machine.index := by
  intro d m n stored loaded
  have hindex : n.index = m.index := rfl
  obtain ⟨-, hstored, hrest, hpassed, -, hloaded, hkept, -, hsame⟩ :=
    stored_registers_load_back .cosmacVip m n hindex d d 3
  have hlast : m.addressOf 3 = 1 := by decide
  have hbyte : stored.devices.memory.byteAt (m.addressOf 3) = 4 :=
    hstored 3 (by decide) (by decide)
  have houtside : ∀ r ≤ (3 : Register), 2 ≠ m.addressOf r := by decide
  rw [hlast] at hbyte
  refine ⟨hindex, hbyte, hrest 2 houtside, hpassed.trans (by decide), ?_, ?_, ?_, hsame⟩
  · exact (hloaded 0 (by decide)).trans (if_neg (by decide))
  · exact (hloaded 3 (by decide)).trans (if_pos (by decide))
  · exact hkept 4 (by decide)

end Chip8.Machine
