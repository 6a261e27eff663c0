import Chip8.Files.Path

namespace Chip8

/-- Why a file cannot be used. -/
inductive FileError
  | notFound
  | notDirectory
  | isDirectory
  | alreadyExists
  | other (reason : String)
  deriving DecidableEq, Repr

/-- The wording of the operating system, with its number for the error. -/
def FileError.message : FileError → String
  | .notFound => "No such file or directory (os error 2)"
  | .notDirectory => "Not a directory (os error 20)"
  | .isDirectory => "Is a directory (os error 21)"
  | .alreadyExists => "File exists (os error 17)"
  | .other reason => reason

/-- A command is written once against this interface, and runs on real files as well as on a tree of
files held in memory. -/
structure FileAccess (m : Type → Type) where
  read : Path → m (Except FileError (List UInt8))
  /-- Makes a directory and those above it, as far as they are missing. -/
  makeDirectories : Path → m (Except FileError Unit)
  /-- Makes an empty file, or empties the one that is there. -/
  create : Path → m (Except FileError Unit)
  write : Path → List UInt8 → m (Except FileError Unit)

end Chip8
