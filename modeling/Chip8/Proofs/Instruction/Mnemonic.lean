import Chip8.Instruction.Mnemonic
import Chip8.Proofs.Text.Hex

namespace Chip8

/-- Can stand in a line: it does not end it and is not taken for the header. -/
def Plain (s : String) : Prop := '\n' ∉ s.toList ∧ '=' ∉ s.toList

instance (s : String) : Decidable (Plain s) := inferInstanceAs (Decidable (_ ∧ _))

@[simp]
theorem plain_append (s t : String) : Plain (s ++ t) ↔ Plain s ∧ Plain t := by
  simp only [Plain, String.toList_append, List.mem_append, not_or]
  exact and_and_and_comm

namespace Hex

theorem mem_lastDigits {width n : Nat} {c : Char} (h : c ∈ lastDigits width n) :
    ∃ d : Fin 16, c = digit d.val := by
  induction width generalizing n with
  | zero => cases h
  | succ width ih =>
    rcases List.mem_append.mp h with h | h
    · exact ih h
    · exact ⟨⟨n % 16, Nat.mod_lt n (by decide)⟩, List.mem_singleton.mp h⟩

/-- No digit is taken for what stands between the columns or ends them. -/
theorem ne_of_mem_digits {width n : Nat} {c : Char} (h : c ∈ digits width n) :
    c ≠ ' ' ∧ c ≠ '\n' ∧ c ≠ '=' := by
  have hall : ∀ d : Fin 16, digit d.val ≠ ' ' ∧ digit d.val ≠ '\n' ∧ digit d.val ≠ '=' := by
    decide
  obtain ⟨d, rfl⟩ := mem_lastDigits h
  exact hall d

@[simp]
theorem plain_text (width n : Nat) : Plain (text width n) := by
  simp only [Plain, text, String.toList_ofList]
  exact ⟨fun h => (ne_of_mem_digits h).2.1 rfl, fun h => (ne_of_mem_digits h).2.2 rfl⟩

@[simp]
theorem plain_literal (width n : Nat) : Plain (literal width n) := by
  simp +decide [literal]

end Hex

namespace Instruction

@[simp]
theorem plain_register (r : Register) : Plain r.text := by
  simp +decide [Register.text]

@[simp]
theorem plain_rows (rows : Nibble) : Plain rows.val.repr := by
  revert rows
  decide

@[simp]
theorem plain_name (operation : Arithmetic) : Plain operation.name := by
  cases operation <;> decide

theorem plain_mnemonic (i : Instruction) : Plain i.mnemonic := by
  cases i with
  | skip condition => cases condition <;> simp +decide [mnemonic, byteText]
  | _ => simp +decide [mnemonic, byteText, addressText]

end Instruction

namespace Word

theorem plain_mnemonic (w : Word) : Plain w.mnemonic := by
  unfold mnemonic
  split
  · exact Instruction.plain_mnemonic _
  · decide

theorem toNat_ofBytes (high low : UInt8) :
    (ofBytes high low).toNat = 256 * high.toNat + low.toNat := by
  have hhigh := high.toNat_lt
  have hlow := low.toNat_lt
  simp only [ofBytes, UInt16.toNat_add, UInt16.toNat_mul, UInt8.toNat_toUInt16, UInt16.reduceToNat]
  omega

theorem toList_dump_ofBytes (high low : UInt8) :
    (ofBytes high low).dump.toList =
      [Hex.digit (high.toNat / 16), Hex.digit (high.toNat % 16),
        Hex.digit (low.toNat / 16), Hex.digit (low.toNat % 16)] := by
  have hhigh := high.toNat_lt
  have hlow := low.toNat_lt
  have hkind : (256 * high.toNat + low.toNat) / 4096 = high.toNat / 16 := by omega
  have hx : (256 * high.toNat + low.toNat) / 256 % 16 = high.toNat % 16 := by omega
  have hy : (256 * high.toNat + low.toNat) / 16 % 16 = low.toNat / 16 := by omega
  have hn : (256 * high.toNat + low.toNat) % 16 = low.toNat % 16 := by omega
  simp only [dump, nibbles, kind, x, y, n, String.toList_ofList, List.map_cons, List.map_nil,
    toNat_ofBytes, hkind, hx, hy, hn]

/-- The digits of the fields are those of the number. -/
theorem dump_eq_text (w : Word) : w.dump = Hex.text 4 w.toNat := by
  have hfits : w.toNat < 65536 := w.toNat_lt
  have hkind : w.toNat / 16 / 16 / 16 % 16 = w.toNat / 4096 := by omega
  have hx : w.toNat / 16 / 16 % 16 = w.toNat / 256 % 16 := by omega
  rw [Hex.text, Hex.digits_four hfits]
  simp only [Hex.lastDigits, hkind, hx]
  rfl

end Word

end Chip8
