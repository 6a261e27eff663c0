import Chip8.CommandError
import Chip8.Listing
import Chip8.Log

namespace Chip8.Disassembly

def defaultOutput : String := "output.txt"

/-- The directory an output is to be in. An output must have a file extension. -/
def outputDirectory (output : String) : Except CommandError Path :=
  let path := Path.parse output
  if path.extension?.isSome then .ok path.directory else .error (.notAFile output)

variable {m : Type → Type} [Monad m]

def attempt {α : Type} (action : m (Except FileError α)) : ExceptT CommandError m α :=
  ExceptT.mk do return (← action).mapError .file

/-- Makes the directory of an output that was asked for. A lone name needs none. -/
def prepare (files : FileAccess m) (output : String) : ExceptT CommandError m Unit := do
  let directory ← ExceptT.mk (pure (outputDirectory output))
  if !directory.isEmpty then attempt (files.makeDirectories directory)

/-- The output is made before the program is read. -/
def run (files : FileAccess m) (rom : String) (output? : Option String) :
    ExceptT CommandError m Log.Record := do
  match output? with
  | some output => prepare files output
  | none => pure ()
  let output := output?.getD defaultOutput
  attempt (files.create (Path.parse output))
  let bytes ← attempt (files.read (Path.parse rom))
  attempt (files.write (Path.parse output) (Listing.bytes rom bytes))
  return ⟨.info, .command, "Wrote disassembled ROM to " ++ output⟩

end Chip8.Disassembly
