import Chip8.CommandError
import Chip8.CommandLine.Basic
import Chip8.Keyboard
import Chip8.Log
import Chip8.Memory.Demo
import Chip8.Screen.Picture
import Chip8.Screen.Window
import Chip8.Status

namespace Chip8

/-- What the window system was told last. -/
inductive Waiting
  /-- Nothing yet. -/
  | unset
  /-- To come back at an instant if nothing happens before. -/
  | wakeAt (instant : Nat)
  /-- To end the session. -/
  | closed
  deriving DecidableEq, Repr

structure Session where
  interpreter : Interpreter
  pacer : Pacer
  /-- When the next frame is due. -/
  deadline : Nat
  /-- The status in the title. -/
  status : String
  surface : List UInt8
  waiting : Waiting

/-- Whether the window system gives us a window, and then a surface to draw on. -/
inductive Display
  | available
  | noWindow (reason : String)
  | noSurface (reason : String)
  deriving DecidableEq, Repr

namespace Session

/-- The name of what is run and its bytes. -/
def program {m : Type → Type} [Monad m] (files : FileAccess m) (path? : Option String) :
    m (Except FileError (String × List UInt8)) :=
  match path? with
  | none => return .ok ("built-in demo", Demo.program)
  | some path => return (← files.read (Path.parse path)).map (path, ·)

def boolText (b : Bool) : String := if b then "true" else "false"

def dialectText (d : Dialect) : String :=
  "Quirks \x7b shift_uses_vy: " ++ boolText d.shiftUsesVy ++ ", increment_index: " ++
    boolText d.incrementIndex ++ " \x7d"

def announcement (name : String) (o : RunOptions) : Log.Record :=
  ⟨.info, .command, "Running " ++ name ++ " [hz: " ++ toString o.hz.toNat ++ "] [fps: " ++
    toString o.fps.toNat ++ "] [quirks: " ++ dialectText o.dialect ++ "]"⟩

def attached : Log.Record := ⟨.info, .screen, "Attached display [success: true]"⟩

/-- The interpreter of a session, with its program loaded. Without a seed its random numbers come
from a generator that differs each time. -/
def interpreterOf (o : RunOptions) (fresh : Random.Generator) (rom : List UInt8) :
    Except LoadError Interpreter :=
  let random := match o.seed with
    | some seed => .ofSeed seed
    | none => fresh
  match (Interpreter.new o.dialect random).load rom with
  | .ok i => .ok (if o.paused then i.togglePause else i)
  | .error e => .error e

/-- A session whose first frame is due at once. -/
def start (i : Interpreter) (o : RunOptions) (now : Nat) : Session where
  interpreter := i
  pacer := .start o.hz o.fps now
  deadline := now
  status := ""
  surface := Picture.emptySurface
  waiting := .unset

/-- Opens a session: its program is read and loaded before the display is asked for. -/
def launch {m : Type → Type} [Monad m] (files : FileAccess m) (o : RunOptions)
    (fresh : Random.Generator) (display : Display) (now : Nat) :
    m (List Log.Record × Except CommandError Session) := do
  match ← program files o.path with
  | .error e => return ([], .error (.file e))
  | .ok (name, rom) =>
    match interpreterOf o fresh rom with
    | .error e => return ([], .error (.load e))
    | .ok i =>
      let running := announcement name o
      match display with
      | .noWindow reason => return ([running], .error (.display reason))
      | .noSurface reason => return ([running], .error (.display reason))
      | .available => return ([running, attached], .ok (start i o now))

end Session

end Chip8
