import Chip8.Files.Access
import Chip8.Memory.Basic

namespace Chip8

inductive CommandError
  | file (e : FileError)
  | load (e : LoadError)
  /-- The output path of a listing has no file extension. -/
  | notAFile (output : String)
  /-- The window system does not give us a window or a surface to draw on. -/
  | display (reason : String)
  deriving DecidableEq, Repr

def CommandError.message : CommandError → String
  | .file e => e.message
  | .load e => e.message
  | .notAFile output => output ++ " is not a file"
  | .display reason => reason

end Chip8
