import Chip8.Interpreter.MemoryView
import Chip8.Session.Basic

namespace Chip8

/-- The keys of one batch of input. -/
structure Input where
  /-- Keys that went down. -/
  pressed : List HostKey
  /-- Keys that are down. -/
  held : List HostKey
  /-- The window was closed. -/
  quit : Bool
  deriving DecidableEq, Repr

inductive Event
  /-- The window wants its picture. Showing it may fail. -/
  | redraw (failure : Option String)
  /-- A batch of input is complete, at an instant of the clock. The keys of the keypad are visited
  in an order of the batch's own. -/
  | batch (now : Nat) (order : KeyOrder) (input : Input)
  | other
  deriving DecidableEq, Repr

/-- What is to be seen of an event from outside. -/
structure Reaction where
  /-- The title set, if it changed. -/
  title : Option String
  redraws : Nat
  /-- The surface, if it was painted. -/
  picture : Option (List UInt8)
  log : List Log.Record
  deriving DecidableEq, Repr

def Reaction.none : Reaction := ⟨.none, 0, .none, []⟩

namespace Session

def reportRecords (i : Interpreter) : List Log.Record :=
  i.report.map fun line => ⟨.debug, .command, line⟩

/-- One key of the keypad: first whether it is down, then whether it was pressed. -/
def enterKey (input : Input) (i : Interpreter) (key : HostKey × UInt8) : Interpreter :=
  let i := i.holdKey key.2 (input.held.contains key.1)
  if input.pressed.contains key.1 then i.pressKey key.2 else i

def enterKeys (input : Input) (layout : List (HostKey × UInt8)) (i : Interpreter) : Interpreter :=
  layout.foldl (enterKey input) i

/-- A step forward is always reported, a step back only where there was one. -/
def control (input : Input) (i : Interpreter) : List Log.Record × Interpreter :=
  let pressed := input.pressed.contains
  let i := if pressed .p then i.togglePause else i
  let i := if pressed .right then i.advance else i
  let forward := if pressed .right then reportRecords i else []
  let (back, i) :=
    match if pressed .left then i.back? else none with
    | some i => (reportRecords i, i)
    | none => ([], i)
  (forward ++ back, if pressed .backspace then i.reset else i)

/-- When the frame after this one is due: a frame later, and never in the past. -/
def nextDeadline (deadline now duration : Nat) : Nat :=
  if deadline + duration < now then now + duration else deadline + duration

/-- Runs the clock cycles of a frame and ticks the timers once. -/
def runCycles (cycles : Nat) (i : Interpreter) : Interpreter :=
  (Nat.repeat Interpreter.cycle cycles i).tick

/-- One frame. A paused frame counts as one without cycles. The session does not survive a frame
that cannot be counted. -/
def frame (s : Session) (now : Nat) : Except PacerError (Reaction × Session) := do
  let (cycles, pacer) := s.pacer.nextFrame
  let interpreter := runCycles cycles.toNat s.interpreter
  let pacer ← pacer.record now (if s.interpreter.paused then 0 else cycles)
  let status := statusLine interpreter pacer
  let title := if status = s.status then none else some (Window.titleOf status)
  return ({ Reaction.none with title, redraws := 1 },
    { s with
      interpreter, pacer, status
      deadline := nextDeadline s.deadline now pacer.frameDuration })

/-- First the keys, then a frame if one is due. Frames that were missed are dropped. -/
def batch (s : Session) (now : Nat) (order : KeyOrder) (input : Input) :
    Except PacerError (Reaction × Session) := do
  if input.pressed.contains .escape || input.quit then
    return (.none, { s with waiting := .closed })
  else
    let (log, i) := control input s.interpreter
    let s := { s with interpreter := enterKeys input order.keys i }
    let (reaction, s) ← if s.deadline ≤ now then s.frame now else pure (.none, s)
    return ({ reaction with log }, { s with waiting := .wakeAt s.deadline })

def redraw (s : Session) (failure : Option String) : Reaction × Session :=
  let surface := Picture.render s.interpreter.machine.screen s.surface
  let s := { s with surface }
  match failure with
  | none => ({ Reaction.none with picture := some surface }, s)
  | some reason =>
    ({ Reaction.none with
        picture := some surface
        log := [⟨.error, .command, "Render failed: " ++ reason⟩] },
      { s with waiting := .closed })

def handle (s : Session) : Event → Except PacerError (Reaction × Session)
  | .redraw failure => .ok (s.redraw failure)
  | .batch now order input => s.batch now order input
  | .other => .ok (.none, s)

/-- The reactions to a list of events, up to the one that ends the session. -/
def handleAll (s : Session) : List Event → Except PacerError (List (Reaction × Session))
  | [] => .ok []
  | event :: rest => do
    let (reaction, s) ← s.handle event
    let later ← if s.waiting = .closed then pure [] else s.handleAll rest
    return (reaction, s) :: later

end Session

end Chip8
