import Chip8.Instruction.Basic

namespace Chip8

namespace Arithmetic

def ofDigit? : Nibble → Option Arithmetic
  | 0x0 => some .copy
  | 0x1 => some .or
  | 0x2 => some .and
  | 0x3 => some .xor
  | 0x4 => some .add
  | 0x5 => some .subtract
  | 0x6 => some .shiftRight
  | 0x7 => some .subtractFrom
  | 0xE => some .shiftLeft
  | _ => none

end Arithmetic

namespace Instruction

/-- The family of the screen and the call stack. The middle digit of its words is free. -/
def ofSystemByte? : UInt8 → Option Instruction
  | 0xE0 => some .clearScreen
  | 0xEE => some .ret
  | _ => none

def ofKeyByte? (x : Register) : UInt8 → Option Instruction
  | 0x9E => some (.skip (.keyHeld x))
  | 0xA1 => some (.skip (.keyFree x))
  | _ => none

/-- The family of timers, keypad, index and memory transfers. -/
def ofDeviceByte? (x : Register) : UInt8 → Option Instruction
  | 0x07 => some (.readDelay x)
  | 0x0A => some (.waitForKey x)
  | 0x15 => some (.setDelay x)
  | 0x18 => some (.setSound x)
  | 0x1E => some (.addToIndex x)
  | 0x29 => some (.pointAtDigit x)
  | 0x33 => some (.storeDecimal x)
  | 0x55 => some (.storeRegisters x)
  | 0x65 => some (.loadRegisters x)
  | _ => none

/-- The last family is that of 0xF. -/
def decode? (w : Word) : Option Instruction :=
  match w.kind with
  | 0x0 => ofSystemByte? w.kk
  | 0x1 => some (.jump w.nnn)
  | 0x2 => some (.call w.nnn)
  | 0x3 => some (.skip (.byteIs w.x w.kk))
  | 0x4 => some (.skip (.byteIsNot w.x w.kk))
  | 0x5 => if w.n = 0 then some (.skip (.equal w.x w.y)) else none
  | 0x6 => some (.setByte w.x w.kk)
  | 0x7 => some (.addByte w.x w.kk)
  | 0x8 => (Arithmetic.ofDigit? w.n).map (.arithmetic · w.x w.y)
  | 0x9 => if w.n = 0 then some (.skip (.different w.x w.y)) else none
  | 0xA => some (.setIndex w.nnn)
  | 0xB => some (.jumpFromV0 w.nnn)
  | 0xC => some (.random w.x w.kk)
  | 0xD => some (.draw w.x w.y w.n)
  | 0xE => ofKeyByte? w.x w.kk
  | _ => ofDeviceByte? w.x w.kk

end Instruction

end Chip8
