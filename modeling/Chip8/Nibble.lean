namespace Chip8

abbrev Nibble := Fin 16

namespace Nibble

/-- Every digit can be written as a numeral. -/
instance sixteen : @NeZero Nat Zero.ofOfNat0 16 := Nat.instNeZeroSucc

theorem lt (d : Nibble) : d.val < 16 := d.isLt

end Nibble

end Chip8
