import Chip8.CommandLine.Switch

namespace Chip8.CommandLine

/-- Read, but not yet checked. -/
inductive Unchecked
  | value (s : Setting) (text : Option String)
  | path (text : String)
  deriving DecidableEq, Repr

/-- What has been read of one part of a command line. The last option or path that was read is left
unchecked until something else follows it or the part ends, so of two mistakes the one that is found
first need not be the one that comes first. -/
structure Draft where
  debug : Option Log.Level
  hz : Option UInt32
  fps : Option UInt32
  seed : Option UInt64
  shiftVy : Bool
  incrementI : Bool
  paused : Bool
  outputFile : Option String
  path : Option String
  last : Option Unchecked
  deriving DecidableEq, Repr

namespace Draft

def empty : Draft := ⟨none, none, none, none, false, false, false, none, none, none⟩

def isSet (d : Draft) : Setting → Bool
  | .debug => d.debug.isSome
  | .hz => d.hz.isSome
  | .fps => d.fps.isSome
  | .seed => d.seed.isSome
  | .shiftVy => d.shiftVy
  | .incrementI => d.incrementI
  | .paused => d.paused
  | .outputFile => d.outputFile.isSome

def orFail {α β : Type} (e : UsageError) (use : α → β) : Option α → Except UsageError β
  | some a => .ok (use a)
  | none => .error e

def nonempty? (text : String) : Option String := if text = "" then none else some text

/-- Sets an option to the value its text stands for. -/
def assign (d : Draft) (s : Setting) (text : String) : Except UsageError Draft :=
  if d.isSet s then .error .repeated
  else match s with
    | .debug => orFail .badValue (fun l => { d with debug := some l }) (Log.Level.named? text)
    | .hz => orFail .badNumber (fun n => { d with hz := some n }) (rate? text)
    | .fps => orFail .badNumber (fun n => { d with fps := some n }) (rate? text)
    | .seed => orFail .badNumber (fun n => { d with seed := some n }) (seed? text)
    | .outputFile => orFail .badValue (fun p => { d with outputFile := some p }) (nonempty? text)
    | .shiftVy | .incrementI | .paused => .error .unwantedValue

/-- Sets an option that takes no value. -/
def raise (d : Draft) (s : Setting) : Except UsageError Draft :=
  if d.isSet s then .error .repeated
  else match s with
    | .shiftVy => .ok { d with shiftVy := true }
    | .incrementI => .ok { d with incrementI := true }
    | .paused => .ok { d with paused := true }
    | .debug | .hz | .fps | .seed | .outputFile => .error .badValue

/-- Checks what was left unchecked. -/
def settle (d : Draft) : Except UsageError Draft :=
  let rest := { d with last := none }
  match d.last with
  | none => .ok d
  | some (.path text) => orFail .badValue (fun p => { rest with path := some p }) (nonempty? text)
  | some (.value _ none) => .error .badValue
  | some (.value s (some text)) => rest.assign s text

/-- The option that the next word is the value of. -/
def awaited? (d : Draft) : Option Setting :=
  match d.last with
  | some (.value s none) => some s
  | _ => none

def hasPath (d : Draft) : Bool :=
  d.path.isSome || match d.last with
    | some (.path _) => true
    | _ => false

end Draft

end Chip8.CommandLine
