namespace Chip8.Hex

/-- The digit of a number below sixteen. -/
def digit (d : Nat) : Char :=
  if d < 10 then Char.ofNat (48 + d) else Char.ofNat (55 + d)

/-- The last `width` digits of a number, the most significant first. -/
def lastDigits : (width n : Nat) → List Char
  | 0, _ => []
  | width + 1, n => lastDigits width (n / 16) ++ [digit (n % 16)]

/-- How many digits a number needs; zero needs one. -/
def size (n : Nat) : Nat := n.log2 / 4 + 1

def digits (width n : Nat) : List Char := lastDigits (max width (size n)) n

def text (width n : Nat) : String := String.ofList (digits width n)

/-- The same behind `0x`, the way numbers stand in mnemonics and in the status line. -/
def literal (width n : Nat) : String := "0x" ++ text width n

theorem length_lastDigits (width n : Nat) : (lastDigits width n).length = width := by
  induction width generalizing n with
  | zero => rfl
  | succ k ih => simp [lastDigits, ih]

end Chip8.Hex
