import Chip8.Instruction.Basic
import Chip8.Memory.Font

namespace Chip8

/-- Why a program cannot be loaded. -/
inductive LoadError
  | tooLarge (size limit : Nat)
  deriving DecidableEq, Repr

def LoadError.message : LoadError → String
  | .tooLarge size limit =>
    "ROM is too large (" ++ toString size ++ " bytes), max size is " ++ toString limit ++ " bytes"

/-- Every 16-bit address may be used: reading past the end gives zero and writing there does
nothing. -/
structure Memory where
  bytes : Vector UInt8 4096
  /-- What a reset restores: the image of the last program loaded. -/
  baseline : Vector UInt8 4096
  deriving DecidableEq

namespace Memory

def size : Nat := 4096

/-- Where programs start, in memory and in the program counter. -/
def programStart : Nat := 0x200

def programLimit : Nat := size - programStart

/-- Memory right after loading: the digit sprites, the program, and zeros elsewhere. -/
def image (rom : List UInt8) (fits : rom.length ≤ programLimit) : Vector UInt8 4096 :=
  let gap := List.replicate (programStart - Font.bytes.length) 0
  let rest := List.replicate (programLimit - rom.length) 0
  ⟨(Font.bytes ++ gap ++ rom ++ rest).toArray, by
    simp only [programLimit, size, programStart, gap, rest, List.size_toArray,
      List.length_append, List.length_replicate, Font.length_bytes, Font.spriteSize] at fits ⊢
    omega⟩

def blank : Memory :=
  let bytes := image [] (Nat.zero_le _)
  ⟨bytes, bytes⟩

def read (m : Memory) (a : UInt16) : UInt8 :=
  if h : a.toNat < 4096 then m.bytes[a.toNat] else 0

/-- The big-endian word at an address. The last byte of memory has a zero after it. -/
def readWord (m : Memory) (a : UInt16) : Word :=
  if a.toNat < size then Word.ofBytes (m.read a) (m.read (a + 1)) else 0

def write (m : Memory) (a : UInt16) (byte : UInt8) : Memory :=
  if h : a.toNat < 4096 then { m with bytes := m.bytes.set a.toNat byte } else m

/-- Reads consecutive bytes. The address wraps from 0xFFFF to 0. -/
def readAll (m : Memory) (a : UInt16) : (count : Nat) → List UInt8
  | 0 => []
  | count + 1 => m.read a :: m.readAll (a + 1) count

/-- Writes consecutive bytes. The address wraps from 0xFFFF to 0. -/
def writeAll (m : Memory) (a : UInt16) : List UInt8 → Memory
  | [] => m
  | byte :: rest => (m.write a byte).writeAll (a + 1) rest

/-- A program that does not fit is refused; one that does replaces all of memory. -/
def load (rom : List UInt8) : Except LoadError Memory :=
  if fits : rom.length ≤ programLimit then
    let bytes := image rom fits
    .ok ⟨bytes, bytes⟩
  else
    .error (.tooLarge rom.length programLimit)

def reset (m : Memory) : Memory := { m with bytes := m.baseline }

end Memory

end Chip8
