import Chip8.Nibble

namespace Chip8

/-- A big-endian pair of bytes, as fetched from memory. -/
abbrev Word := UInt16

/-- One of V0 to VF. -/
abbrev Register := Nibble

/-- The twelve bits an instruction can hold of an address. -/
abbrev Address := Fin 4096

namespace Word

def ofBytes (high low : UInt8) : Word := high.toUInt16 * 256 + low.toUInt16

/-- The top digit, which tells the families of instructions apart. -/
def kind (w : Word) : Nibble := ⟨w.toNat / 4096, by have := w.toNat_lt; omega⟩

def x (w : Word) : Register := ⟨w.toNat / 256 % 16, by omega⟩

def y (w : Word) : Register := ⟨w.toNat / 16 % 16, by omega⟩

def n (w : Word) : Nibble := ⟨w.toNat % 16, by omega⟩

def kk (w : Word) : UInt8 := w.toUInt8

def nnn (w : Word) : Address := ⟨w.toNat % 4096, by omega⟩

/-- The four hexadecimal digits, the most significant first. -/
def nibbles (w : Word) : List Nibble := [w.kind, w.x, w.y, w.n]

end Word

def Address.toUInt16 (a : Address) : UInt16 := UInt16.ofNat a.val

/-- When a skip instruction passes over its successor. -/
inductive Condition
  | byteIs (x : Register) (byte : UInt8)
  | byteIsNot (x : Register) (byte : UInt8)
  | equal (x y : Register)
  | different (x y : Register)
  | keyHeld (x : Register)
  | keyFree (x : Register)
  deriving DecidableEq, Repr

/-- The operations of the register-to-register family. -/
inductive Arithmetic
  | copy
  | or
  | and
  | xor
  | add
  | subtract
  | shiftRight
  | subtractFrom
  | shiftLeft
  deriving DecidableEq, Repr

inductive Instruction
  | clearScreen
  | ret
  | jump (target : Address)
  | call (target : Address)
  | skip (condition : Condition)
  | setByte (x : Register) (byte : UInt8)
  | addByte (x : Register) (byte : UInt8)
  | arithmetic (operation : Arithmetic) (x y : Register)
  | setIndex (target : Address)
  | jumpFromV0 (base : Address)
  | random (x : Register) (mask : UInt8)
  | draw (x y : Register) (rows : Nibble)
  | readDelay (x : Register)
  | waitForKey (x : Register)
  | setDelay (x : Register)
  | setSound (x : Register)
  | addToIndex (x : Register)
  | pointAtDigit (x : Register)
  | storeDecimal (x : Register)
  | storeRegisters (last : Register)
  | loadRegisters (last : Register)
  deriving DecidableEq, Repr

end Chip8
