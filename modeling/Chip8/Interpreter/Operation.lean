import Chip8.Interpreter.Basic

namespace Chip8

namespace Interpreter

inductive Operation
  | load (rom : List UInt8)
  | reset
  | cycle
  | tick
  | togglePause
  | advance
  | back
  | press (key : UInt8)
  | hold (key : UInt8) (down : Bool)

inductive Reply
  | done
  | refused (e : LoadError)
  /-- Whether going back showed an older state. -/
  | moved (yes : Bool)
  deriving DecidableEq, Repr

def perform (i : Interpreter) : Operation → Reply × Interpreter
  | .load rom =>
    match i.load rom with
    | .ok i => (.done, i)
    | .error e => (.refused e, i)
  | .reset => (.done, i.reset)
  | .cycle => (.done, i.cycle)
  | .tick => (.done, i.tick)
  | .togglePause => (.done, i.togglePause)
  | .advance => (.done, i.advance)
  | .back =>
    match i.back? with
    | some i => (.moved true, i)
    | none => (.moved false, i)
  | .press key => (.done, i.pressKey key)
  | .hold key down => (.done, i.holdKey key down)

/-- The replies to a list of operations and the interpreter after the last of them. -/
def performAll (i : Interpreter) : List Operation → List Reply × Interpreter
  | [] => ([], i)
  | op :: rest =>
    let (reply, i) := i.perform op
    let (replies, i) := i.performAll rest
    (reply :: replies, i)

end Interpreter

end Chip8
