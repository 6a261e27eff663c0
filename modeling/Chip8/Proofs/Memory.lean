import Chip8.Memory.Basic

namespace Chip8.Memory

/-- The byte at an address of any size, zero past the end of memory. -/
def byteAt (m : Memory) (a : Nat) : UInt8 := m.bytes[a]?.getD 0

theorem read_eq_byteAt (m : Memory) (a : UInt16) : m.read a = m.byteAt a.toNat := by
  unfold read byteAt
  split
  · rename_i h
    rw [Vector.getElem?_eq_getElem h]
    rfl
  · rename_i h
    rw [Vector.getElem?_eq_none (Nat.le_of_not_lt h)]
    rfl

theorem byteAt_of_size_le (m : Memory) {n : Nat} (h : size ≤ n) : m.byteAt n = 0 := by
  have hnone : m.bytes[n]? = none := Vector.getElem?_eq_none h
  rw [byteAt, hnone]
  rfl

theorem toNat_add_ofNat (a : UInt16) (k : Nat) :
    (a + UInt16.ofNat k).toNat = (a.toNat + k) % 65536 := by
  simp [UInt16.toNat_add, Nat.add_mod]

/-- Counted from the next address on, a place is one less far. -/
theorem toNat_succ_add (a : UInt16) (k : Nat) :
    ((a + 1).toNat + k) % 65536 = (a.toNat + (k + 1)) % 65536 := by
  simp only [UInt16.toNat_add, UInt16.reduceToNat]
  omega

theorem getElem?_readAll (m : Memory) (a : UInt16) (count k : Nat) :
    (m.readAll a count)[k]? =
      if k < count then some (m.byteAt ((a.toNat + k) % 65536)) else none := by
  induction count generalizing a k with
  | zero => rfl
  | succ count ih =>
    cases k with
    | zero =>
      have ha : a.toNat % 65536 = a.toNat := Nat.mod_eq_of_lt a.toNat_lt
      simp [readAll, read_eq_byteAt, ha]
    | succ k =>
      rw [readAll, List.getElem?_cons_succ, ih, toNat_succ_add]
      simp only [Nat.succ_lt_succ_iff]

theorem byteAt_write (m : Memory) (a : UInt16) (byte : UInt8) (n : Nat) :
    (m.write a byte).byteAt n = if n = a.toNat ∧ n < size then byte else m.byteAt n := by
  unfold write byteAt
  split
  · rename_i h
    rw [Vector.getElem?_set]
    by_cases hn : n = a.toNat
    · subst hn
      have hsize : a.toNat < size := h
      simp [hsize]
    · simp [hn, Ne.symm hn]
  · rename_i h
    rw [if_neg]
    rintro ⟨rfl, hsize⟩
    exact h hsize

/-- Writing leaves the other bytes alone. -/
theorem byteAt_writeAll_of_ne (m : Memory) (a : UInt16) {bytes : List UInt8} {n : Nat}
    (h : ∀ k < bytes.length, n ≠ (a.toNat + k) % 65536) :
    (m.writeAll a bytes).byteAt n = m.byteAt n := by
  induction bytes generalizing m a with
  | nil => rfl
  | cons byte rest ih =>
    have hfirst : n ≠ a.toNat := by
      have hzero := h 0 (Nat.succ_pos _)
      rwa [Nat.add_zero, Nat.mod_eq_of_lt a.toNat_lt] at hzero
    have hrest : ∀ k < rest.length, n ≠ ((a + 1).toNat + k) % 65536 := by
      intro k hk
      rw [toNat_succ_add]
      exact h (k + 1) (Nat.succ_lt_succ hk)
    rw [writeAll, ih _ _ hrest, byteAt_write, if_neg fun hn => hfirst hn.1]

/-- With fewer bytes than addresses, none is written over by a later one. -/
theorem byteAt_writeAll (m : Memory) (a : UInt16) {bytes : List UInt8}
    (hlength : bytes.length ≤ 65536) {k : Nat} (hk : k < bytes.length)
    (hsize : (a.toNat + k) % 65536 < size) :
    (m.writeAll a bytes).byteAt ((a.toNat + k) % 65536) = bytes[k] := by
  induction bytes generalizing m a k with
  | nil => cases hk
  | cons byte rest ih =>
    rw [List.length_cons] at hlength
    cases k with
    | zero =>
      have hrest : ∀ k < rest.length, (a.toNat + 0) % 65536 ≠ ((a + 1).toNat + k) % 65536 := by
        intro k hk
        rw [toNat_succ_add]
        omega
      have ha : (a.toNat + 0) % 65536 = a.toNat := Nat.mod_eq_of_lt a.toNat_lt
      rw [writeAll, byteAt_writeAll_of_ne _ _ hrest, byteAt_write, if_pos ⟨ha, hsize⟩]
      rfl
    | succ k =>
      rw [← toNat_succ_add] at hsize ⊢
      exact ih _ _ (Nat.le_of_succ_le hlength) (Nat.lt_of_succ_lt_succ hk) hsize

/-- What lies at an address when a program was just loaded: the digit sprites at the bottom, the
program from its start on, and zeros between them and after it. -/
def laidOut (rom : List UInt8) (a : Nat) : UInt8 :=
  if a < 0x50 then Font.bytes.getD a 0
  else if a < 0x200 then 0
  else rom.getD (a - 0x200) 0

theorem getElem_image (rom : List UInt8) (fits : rom.length ≤ programLimit) (a : Nat)
    (h : a < 4096) : (image rom fits)[a] = laidOut rom a := by
  have hfont : Font.bytes.length = 0x50 := Font.length_bytes
  simp only [image, Vector.getElem_mk, List.getElem_toArray, List.getElem_append, List.length_append,
    List.length_replicate, List.getElem_replicate, hfont, programStart, laidOut]
  by_cases hsprite : a < 0x50
  · have hgap : a < 0x200 := Nat.lt_trans hsprite (by decide)
    have hrom : a < 0x200 + rom.length := Nat.lt_add_right _ hgap
    have hinside : a < Font.bytes.length := by rwa [hfont]
    simp [hsprite, hgap, hrom, hinside]
  by_cases hgap : a < 0x200
  · have hrom : a < 0x200 + rom.length := Nat.lt_add_right _ hgap
    simp [hsprite, hgap, hrom]
  · by_cases hrom : a < 0x200 + rom.length
    · have hinside : a - 0x200 < rom.length := by omega
      simp [hsprite, hgap, hrom, hinside]
    · have hpast : rom.length ≤ a - 0x200 := by omega
      simp [hsprite, hgap, hrom, hpast]

end Chip8.Memory
