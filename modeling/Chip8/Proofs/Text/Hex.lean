import Chip8.Text.Hex

namespace Chip8.Hex

/-- The digits of a number in base sixteen, in upper case and behind as many zeros as it takes to
fill a column. -/
def padded (width n : Nat) : List Char :=
  List.leftpad width '0' ((Nat.toDigits 16 n).map Char.toUpper)

theorem digit_eq_toUpper {d : Nat} (h : d < 16) : digit d = d.digitChar.toUpper := by
  have hall : ∀ d : Fin 16, digit d.val = d.val.digitChar.toUpper := by decide
  exact hall ⟨d, h⟩

theorem size_of_lt {n : Nat} (h : n < 16) : size n = 1 := by
  have hall : ∀ n : Fin 16, size n.val = 1 := by decide
  exact hall ⟨n, h⟩

theorem size_of_le {n : Nat} (h : 16 ≤ n) : size n = size (n / 16) + 1 := by
  have hquarter : n / 16 = n / 2 / 2 / 2 / 2 := by omega
  have hlog : n.log2 = (n / 16).log2 + 4 := by
    rw [hquarter, Nat.log2_def, if_pos (by omega), Nat.log2_def (n / 2), if_pos (by omega),
      Nat.log2_def (n / 2 / 2), if_pos (by omega), Nat.log2_def (n / 2 / 2 / 2), if_pos (by omega)]
  simp only [size, hlog]
  omega

theorem length_toDigits (n : Nat) : (Nat.toDigits 16 n).length = size n := by
  induction n using Nat.strongRecOn with
  | ind n ih =>
    rcases Nat.lt_or_ge n 16 with hlt | hge
    · rw [Nat.toDigits_of_lt_base hlt, size_of_lt hlt]
      rfl
    · rw [Nat.toDigits_of_base_le (by decide) hge, size_of_le hge, List.length_append,
        ih (n / 16) (by omega)]
      rfl

theorem lastDigits_zero (width : Nat) : lastDigits width 0 = List.replicate width '0' := by
  induction width with
  | zero => rfl
  | succ width ih =>
    rw [lastDigits, Nat.zero_div, ih, List.replicate_succ']
    rfl

/-- A column that is wide enough for a number begins with zeros. -/
theorem lastDigits_of_size_le {width n : Nat} (h : size n ≤ width) :
    lastDigits width n =
      List.replicate (width - size n) '0' ++ (Nat.toDigits 16 n).map Char.toUpper := by
  induction width generalizing n with
  | zero => exact absurd h (Nat.not_le_of_lt (Nat.succ_pos _))
  | succ width ih =>
    rw [lastDigits, digit_eq_toUpper (Nat.mod_lt n (by decide))]
    rcases Nat.lt_or_ge n 16 with hlt | hge
    · rw [Nat.div_eq_of_lt hlt, Nat.mod_eq_of_lt hlt, lastDigits_zero, size_of_lt hlt,
        Nat.toDigits_of_lt_base hlt]
      rfl
    · rw [size_of_le hge] at h ⊢
      rw [ih (Nat.le_of_succ_le_succ h), Nat.toDigits_of_base_le (by decide) hge, List.map_append,
        List.append_assoc, Nat.succ_sub_succ]
      rfl

theorem digits_eq_padded (width n : Nat) : digits width n = padded width n := by
  rw [digits, lastDigits_of_size_le (Nat.le_max_right ..), padded, List.leftpad, List.length_map,
    length_toDigits]
  congr 2
  omega

theorem text_eq_padded (width n : Nat) : text width n = String.ofList (padded width n) := by
  rw [text, digits_eq_padded]

theorem size_le_succ {width n : Nat} (h : size (n / 16) ≤ width) : size n ≤ width + 1 := by
  rcases Nat.lt_or_ge n 16 with hlt | hge
  · rw [size_of_lt hlt]
    exact Nat.le_add_left 1 width
  · rw [size_of_le hge]
    exact Nat.succ_le_succ h

theorem digits_of_size_le {width n : Nat} (h : size n ≤ width) :
    digits width n = lastDigits width n := by
  rw [digits, Nat.max_eq_left h]

/-- A number that fits its column takes it up. -/
theorem length_digits {width n : Nat} (h : size n ≤ width) : (digits width n).length = width := by
  rw [digits_of_size_le h, length_lastDigits]

/-- A word has no more digits than a column of four is wide. -/
theorem digits_four {n : Nat} (h : n < 65536) : digits 4 n = lastDigits 4 n := by
  have hfirst : size (n / 16 / 16 / 16) ≤ 1 := Nat.le_of_eq (size_of_lt (by omega))
  exact digits_of_size_le (size_le_succ (size_le_succ (size_le_succ hfirst)))

/-- The number that a digit stands for. -/
def value? (c : Char) : Option Nat :=
  if '0' ≤ c ∧ c ≤ '9' then some (c.toNat - 48)
  else if 'A' ≤ c ∧ c ≤ 'F' then some (c.toNat - 55)
  else none

/-- Reads bytes of two digits each. -/
def bytes? : List Char → Option (List UInt8)
  | [] => some []
  | [_] => none
  | high :: low :: rest => do
    let high ← value? high
    let low ← value? low
    let bytes ← bytes? rest
    return UInt8.ofNat (16 * high + low) :: bytes

theorem value?_digit {d : Nat} (h : d < 16) : value? (digit d) = some d := by
  have hall : ∀ d : Fin 16, value? (digit d.val) = some d.val := by decide
  exact hall ⟨d, h⟩

theorem bytes?_digits {high low : Nat} (hhigh : high < 16) (hlow : low < 16) (rest : List Char) :
    bytes? (digit high :: digit low :: rest) =
      (bytes? rest).map (UInt8.ofNat (16 * high + low) :: ·) := by
  rw [bytes?, value?_digit hhigh, value?_digit hlow]
  cases bytes? rest <;> rfl

/-- The number that digits stand for. -/
def number? (cs : List Char) : Option Nat :=
  cs.foldlM (fun n c => (value? c).map (16 * n + ·)) 0

/-- A number can be read back from a column that is wide enough for it. -/
theorem number?_lastDigits {width n : Nat} (h : n = 0 ∨ size n ≤ width) :
    number? (lastDigits width n) = some n := by
  induction width generalizing n with
  | zero =>
    obtain rfl : n = 0 := h.resolve_right (Nat.not_le_of_lt (Nat.succ_pos _))
    rfl
  | succ width ih =>
    have hrest : n / 16 = 0 ∨ size (n / 16) ≤ width := by
      rcases Nat.lt_or_ge n 16 with hlt | hge
      · exact .inl (Nat.div_eq_of_lt hlt)
      · have hsize := h.resolve_left (by omega)
        rw [size_of_le hge] at hsize
        exact .inr (Nat.le_of_succ_le_succ hsize)
    have hread := ih hrest
    have hdigit := value?_digit (Nat.mod_lt n (by decide : 0 < 16))
    rw [number?] at hread
    rw [number?, lastDigits, List.foldlM_append, hread]
    simp [hdigit, Nat.div_add_mod]

theorem number?_digits {width n : Nat} (h : size n ≤ width) :
    number? (digits width n) = some n := by
  rw [digits_of_size_le h]
  exact number?_lastDigits (.inr h)

end Chip8.Hex
