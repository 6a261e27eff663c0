import Chip8.CommandLine.Basic

namespace Chip8.CommandLine

/-- An option that sets something. -/
inductive Setting
  | debug
  | hz
  | fps
  | seed
  | shiftVy
  | incrementI
  | paused
  | outputFile
  deriving DecidableEq, Repr

def Setting.takesValue : Setting → Bool
  | .shiftVy | .incrementI | .paused => false
  | .debug | .hz | .fps | .seed | .outputFile => true

inductive Switch
  | setting (s : Setting)
  | help
  | version
  deriving DecidableEq, Repr

def Switch.takesValue : Switch → Bool
  | .setting s => s.takesValue
  | .help | .version => false

/-- The part of a command line being read: before the command, or behind it. -/
inductive Scope
  | program
  | run
  | disassemble
  deriving DecidableEq, Repr

namespace Scope

def topic : Scope → Topic
  | program => .program
  | run => .run
  | disassemble => .disassemble

/-- The level of the log can be set in every part. -/
def long? : Scope → String → Option Switch
  | _, "debug" => some (.setting .debug)
  | _, "help" => some .help
  | program, "version" => some .version
  | run, "hz" => some (.setting .hz)
  | run, "fps" => some (.setting .fps)
  | run, "seed" => some (.setting .seed)
  | run, "shift-vy" => some (.setting .shiftVy)
  | run, "increment-i" => some (.setting .incrementI)
  | run, "paused" => some (.setting .paused)
  | disassemble, "output-file" => some (.setting .outputFile)
  | _, _ => none

def short? : Scope → Char → Option Switch
  | _, 'd' => some (.setting .debug)
  | _, 'h' => some .help
  | program, 'V' => some .version
  | disassemble, 'o' => some (.setting .outputFile)
  | _, _ => none

end Scope

/-- A decimal number. A plus sign may stand in front. -/
def number? (text : String) : Option Nat :=
  let digits := match text.toList with
    | '+' :: rest => rest
    | all => all
  if !digits.isEmpty && digits.all Char.isDigit then
    some (digits.foldl (fun n c => 10 * n + (c.toNat - '0'.toNat)) 0)
  else none

/-- A rate of at least one in a second. -/
def rate? (text : String) : Option UInt32 :=
  (number? text).bind fun n => if 1 ≤ n ∧ n < UInt32.size then some (UInt32.ofNat n) else none

def seed? (text : String) : Option UInt64 :=
  (number? text).bind fun n => if n < UInt64.size then some (UInt64.ofNat n) else none

end Chip8.CommandLine
