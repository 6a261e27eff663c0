import Chip8.Memory.Basic
import Chip8.Screen.FrameBuffer

namespace Chip8

structure Machine where
  pc : UInt16
  index : UInt16
  delay : UInt8
  sound : UInt8
  /-- How many calls are open. -/
  sp : UInt8
  v : Vector UInt8 16
  /-- Where the open calls were made, oldest first. Slots from `sp` on are left over from calls
  that have returned. -/
  stack : Vector UInt16 16
  screen : FrameBuffer
  deriving DecidableEq

namespace Machine

/-- VF, the register that instructions report a carry, a borrow or a collision in. -/
def flag : Register := 0xF

def registerCount : Nat := 16

/-- The most calls that can be open. -/
def stackDepth : Nat := 16

def initial : Machine where
  pc := UInt16.ofNat Memory.programStart
  index := 0
  delay := 0
  sound := 0
  sp := 0
  v := Vector.replicate 16 0
  stack := Vector.replicate 16 0
  screen := .blank

/-- The addresses of the open calls, oldest first. -/
def callers (m : Machine) : List UInt16 := m.stack.toList.take m.sp.toNat

def register (m : Machine) (r : Register) : UInt8 := m.v.get r

/-- By number, if there is such a register. -/
def register? (m : Machine) (number : Nat) : Option UInt8 := m.v[number]?

def setRegister (m : Machine) (r : Register) (byte : UInt8) : Machine :=
  { m with v := m.v.set r.val byte r.lt }

def setFlag (m : Machine) (on : Bool) : Machine := m.setRegister flag (if on then 1 else 0)

/-- Goes on to the next instruction. -/
def next (m : Machine) : Machine := { m with pc := m.pc + 2 }

/-- One tick of both timers, which stop at zero. -/
def tick (m : Machine) : Machine :=
  { m with
    delay := if m.delay = 0 then 0 else m.delay - 1
    sound := if m.sound = 0 then 0 else m.sound - 1 }

end Machine

end Chip8
