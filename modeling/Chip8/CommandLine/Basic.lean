import Chip8.Log
import Chip8.Machine.Dialect

namespace Chip8

structure RunOptions where
  /-- The program to run; the demo if there is none. -/
  path : Option String
  hz : UInt32
  fps : UInt32
  shiftVy : Bool
  incrementI : Bool
  /-- Where the random numbers start, if they are to be the same every time. -/
  seed : Option UInt64
  paused : Bool
  deriving DecidableEq, Repr

def RunOptions.dialect (o : RunOptions) : Dialect := ⟨o.shiftVy, o.incrementI⟩

structure DisassembleOptions where
  path : String
  outputFile : Option String
  deriving DecidableEq, Repr

inductive Command
  | run (options : RunOptions)
  | disassemble (options : DisassembleOptions)
  deriving DecidableEq, Repr

structure CommandLine where
  command : Command
  /-- Which log records to show, if it is said. -/
  debug : Option Log.Level
  deriving DecidableEq, Repr

namespace CommandLine

def logLevel (c : CommandLine) : Log.Level := c.debug.getD .standard

/-- What a help text is about. -/
inductive Topic
  | program
  | run
  | disassemble
  | help
  deriving DecidableEq, Repr

inductive UsageError
  /-- Nothing was asked for at all. -/
  | noArguments
  | missingCommand
  | unknownCommand
  /-- An unknown option, or one argument too many. -/
  | unknownArgument
  | missingArgument
  /-- No value where one is needed, an empty path, or an unknown level. -/
  | badValue
  | badNumber
  /-- An option was given twice. -/
  | repeated
  /-- An option that takes no value was given one. -/
  | unwantedValue
  deriving DecidableEq, Repr

def UsageError.message : UsageError → String
  | .noArguments => "no command was given"
  | .missingCommand => "a command is required"
  | .unknownCommand => "unrecognized command"
  | .unknownArgument => "unexpected argument"
  | .missingArgument => "a required argument is missing"
  | .badValue => "invalid value for an option"
  | .badNumber => "invalid number for an option"
  | .repeated => "an option cannot be used multiple times"
  | .unwantedValue => "an option does not take a value"

/-- What ends the reading of a command line before there is a command. -/
inductive Stop
  | help (topic : Topic)
  | version
  | misuse (e : UsageError)
  deriving DecidableEq, Repr

end CommandLine

end Chip8
