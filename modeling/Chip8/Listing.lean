import Chip8.Instruction.Mnemonic
import Chip8.Memory.Basic

namespace Chip8.Listing

/-- The words of a program. An odd last byte is the high byte of a word whose low byte is zero. -/
def words : List UInt8 → List Word
  | [] => []
  | [high] => [Word.ofBytes high 0]
  | high :: low :: rest => Word.ofBytes high low :: words rest

def line (address : Nat) (w : Word) : String :=
  Hex.text 3 address ++ "  " ++ w.dump ++ "  " ++ w.mnemonic

/-- The lines of consecutive words. Addresses go on past the end of memory. -/
def linesFrom (address : Nat) : List Word → List String
  | [] => []
  | w :: rest => line address w :: linesFrom (address + 2) rest

def header (name : String) : String := "== " ++ name ++ " =="

def lines (name : String) (rom : List UInt8) : List String :=
  header name :: linesFrom Memory.programStart (words rom)

def text (name : String) (rom : List UInt8) : String :=
  String.join ((lines name rom).map (· ++ "\n"))

def bytes (name : String) (rom : List UInt8) : List UInt8 := (text name rom).toUTF8.toList

end Chip8.Listing
