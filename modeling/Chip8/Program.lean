import Chip8.CommandLine.Help
import Chip8.CommandLine.Parse
import Chip8.Disassembly
import Chip8.Session.Basic

namespace Chip8.Program

structure Outcome where
  exitCode : UInt8
  /-- What is written to the standard output. -/
  output : String
  /-- What is said about arguments that cannot be understood. -/
  complaint : Option String
  log : List Log.Record
  deriving DecidableEq, Repr

def ofStop : CommandLine.Stop → Outcome
  | .help topic => ⟨0, topic.text, none, []⟩
  | .version => ⟨0, CommandLine.version, none, []⟩
  | .misuse e => ⟨2, "", some e.message, []⟩

def headless : Display := .noWindow "no window system is available"

variable {m : Type → Type} [Monad m]

/-- Carries out a command. What it logs before it fails comes first. -/
def perform (files : FileAccess m) (fresh : Random.Generator) :
    Command → m (List Log.Record × Except CommandError Unit)
  | .run options => do
    let (log, result) ← Session.launch files options fresh headless 0
    return (log, result.map fun _ => ())
  | .disassemble options => do
    match ← (Disassembly.run files options.path options.outputFile).run with
    | .ok written => return ([written], .ok ())
    | .error e => return ([], .error e)

/-- A command that fails says why in its last log record. -/
def run (files : FileAccess m) (fresh : Random.Generator) (arguments : List String) :
    m Outcome := do
  match CommandLine.parse arguments with
  | .error stop => return ofStop stop
  | .ok line =>
    let (log, result) ← perform files fresh line.command
    match result with
    | .ok () => return ⟨0, "", none, Log.shown line.logLevel log⟩
    | .error e =>
      let failure : Log.Record := ⟨.error, .program, e.message⟩
      return ⟨1, "", none, Log.shown line.logLevel (log ++ [failure])⟩

end Chip8.Program
