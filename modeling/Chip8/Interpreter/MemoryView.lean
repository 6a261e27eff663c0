import Chip8.Instruction.Mnemonic
import Chip8.Interpreter.Basic

namespace Chip8

structure MemoryLine where
  address : UInt16
  word : Word
  /-- The program counter points here. -/
  isCurrent : Bool
  deriving DecidableEq, Repr

namespace MemoryLine

def text (l : MemoryLine) : String :=
  (if l.isCurrent then ">" else " ") ++ " " ++ Hex.text 3 l.address.toNat ++ "  " ++
    Hex.text 4 l.word.toNat ++ "  " ++ l.word.mnemonic

end MemoryLine

namespace Interpreter

/-- The first address of the view, unless memory starts before it. -/
def viewStart (pc radius : Nat) : Nat := pc - 2 * radius

/-- The last address of the view, unless memory ends before it. -/
def viewEnd (pc radius : Nat) : Nat := min (pc + 2 * radius) (Memory.size - 2)

/-- Every second address from the first up to the last. There is none when the last lies before the
first. -/
def viewAddresses (pc radius : Nat) : List Nat :=
  let first := viewStart pc radius
  List.range' first ((viewEnd pc radius + 2 - first) / 2) 2

/-- So many words either side of the program counter. -/
def memoryView (i : Interpreter) (radius : UInt16) : List MemoryLine :=
  let pc := i.machine.pc
  (viewAddresses pc.toNat radius.toNat).map fun n =>
    let address := UInt16.ofNat n
    ⟨address, i.devices.memory.readWord address, address == pc⟩

/-- The registers as `00, 1F, …` in brackets, behind the counters and timers. -/
def registerLine (m : Machine) : String :=
  "PC = " ++ Hex.literal 3 m.pc.toNat ++ " I = " ++ Hex.literal 3 m.index.toNat ++
    " DT = " ++ Hex.literal 2 m.delay.toNat ++ " ST = " ++ Hex.literal 2 m.sound.toNat ++
    " V = [" ++ ", ".intercalate (m.v.toList.map fun b => Hex.text 2 b.toNat) ++ "]"

/-- How far the view under the registers reaches. -/
def reportRadius : UInt16 := 10

/-- The register line and the memory around the program counter. -/
def report (i : Interpreter) : List String :=
  registerLine i.machine :: (i.memoryView reportRadius).map MemoryLine.text

end Interpreter

end Chip8
