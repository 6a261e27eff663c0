import Chip8.History
import Chip8.Machine.Execute

namespace Chip8

/-- A machine with its devices, whose states are recorded as they are computed. Going back changes
only which state is on show: memory, keypad and random numbers stay those of the newest one. -/
structure Interpreter where
  devices : Devices
  history : History Machine
  dialect : Dialect
  paused : Bool
  /-- A single step was taken since the last tick of the timers. -/
  stepped : Bool

namespace Interpreter

def new (dialect : Dialect) (random : Random.Generator) : Interpreter where
  devices := ⟨.blank, .idle, random⟩
  history := .new .initial
  dialect := dialect
  paused := false
  stepped := false

/-- The state on show. -/
def machine (i : Interpreter) : Machine := i.history.currentState

/-- Back to where the last load left off. Pause, held keys and random numbers stay as they are. -/
def reset (i : Interpreter) : Interpreter :=
  { i with
    devices :=
      { i.devices with memory := i.devices.memory.reset, keypad := i.devices.keypad.release }
    history := i.history.reset .initial
    stepped := false }

/-- A program that is refused changes nothing. -/
def load (i : Interpreter) (rom : List UInt8) : Except LoadError Interpreter :=
  match Memory.load rom with
  | .ok memory => .ok { i with devices := { i.devices with memory } }.reset
  | .error e => .error e

/-- Shows the next recorded state, or computes a new one if the newest is on show. An instruction
that is not carried out records nothing. -/
def step (i : Interpreter) : Interpreter :=
  match i.history.stepForward? with
  | some history => { i with history }
  | none =>
    let word := i.devices.memory.readWord i.machine.pc
    let e := i.machine.executeWord i.dialect i.devices word
    match e.update with
    | .changed => { i with devices := e.devices, history := i.history.commit e.machine }
    | .unchanged => { i with devices := e.devices }

/-- One beat of the clock. -/
def cycle (i : Interpreter) : Interpreter := if i.paused then i else i.step

/-- One beat of the timers. While paused they only run on after a single step. -/
def tick (i : Interpreter) : Interpreter :=
  if i.paused && !i.stepped then i
  else { i with history := i.history.modifyCurrent Machine.tick, stepped := false }

def togglePause (i : Interpreter) : Interpreter := { i with paused := !i.paused }

/-- A single step, which only a paused interpreter takes. -/
def advance (i : Interpreter) : Interpreter :=
  if i.paused then { i with stepped := true }.step else i

/-- One state back, which only a paused interpreter goes. -/
def back? (i : Interpreter) : Option Interpreter :=
  if i.paused then i.history.stepBack?.map fun history => { i with history } else none

def pressKey (i : Interpreter) (key : UInt8) : Interpreter :=
  { i with devices := { i.devices with keypad := i.devices.keypad.press key } }

def holdKey (i : Interpreter) (key : UInt8) (down : Bool) : Interpreter :=
  { i with devices := { i.devices with keypad := i.devices.keypad.setHeld key down } }

/-- How many states can be gone back over from the one on show. -/
def position (i : Interpreter) : Nat := i.history.depth - i.history.behind

end Interpreter

end Chip8
