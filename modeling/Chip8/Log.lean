namespace Chip8.Log

inductive Level
  | error
  | info
  | debug
  | trace
  deriving DecidableEq, Repr

namespace Level

def name : Level → String
  | error => "error"
  | info => "info"
  | debug => "debug"
  | trace => "trace"

def named? : String → Option Level
  | "error" => some error
  | "info" => some info
  | "debug" => some debug
  | "trace" => some trace
  | _ => none

/-- How it is written in a record. -/
def label (l : Level) : String := l.name.map Char.toUpper

/-- The greater, the less important. -/
def rank : Level → Nat
  | error => 0
  | info => 1
  | debug => 2
  | trace => 3

/-- Shown when nothing else is asked for. -/
def standard : Level := error

end Level

/-- The part of the program that a record comes from. -/
inductive Source
  | program
  | command
  | screen
  deriving DecidableEq, Repr

def Source.name : Source → String
  | .program => "chip8_rewind"
  | .command => "chip8_rewind::cli"
  | .screen => "chip8_rewind::screen"

structure Record where
  level : Level
  source : Source
  message : String
  deriving DecidableEq, Repr

/-- The records shown at a level. -/
def shown (level : Level) (records : List Record) : List Record :=
  records.filter fun r => r.level.rank ≤ level.rank

end Chip8.Log
