import Chip8.Program

namespace Chip8

namespace RealFiles

/-- The number of a directory where a file is wanted. Some calls give it with its sign turned. -/
def directoryCodes : List UInt32 := [21, 0 - 21]

/-- The reason a file cannot be used, as the operating system gives it. -/
def reason : IO.Error → FileError
  | .noFileOrDirectory .. => .notFound
  | .inappropriateType _ code _ =>
    if directoryCodes.contains code then .isDirectory else .notDirectory
  | .alreadyExists .. => .alreadyExists
  | e => .other (toString e)

def attempt {α : Type} (action : IO α) : IO (Except FileError α) := do
  match ← action.toBaseIO with
  | .ok a => return .ok a
  | .error e => return .error (reason e)

def access : FileAccess IO where
  read p := attempt do return (← IO.FS.readBinFile p.text).toList
  makeDirectories p := attempt (IO.FS.createDirAll p.text)
  create p := attempt (IO.FS.writeBinFile p.text .empty)
  write p bytes := attempt (IO.FS.writeBinFile p.text ⟨bytes.toArray⟩)

end RealFiles

/-- A generator that nobody has seeded. -/
def freshGenerator : IO Random.Generator := do
  let bytes ← IO.getRandomBytes 32
  let word (n : Nat) : UInt32 :=
    (List.range 4).foldr (fun i w => w * 256 + (bytes.toList.getD (4 * n + i) 0).toUInt32) 0
  return .ofKey (Vector.ofFn fun i : Fin 8 => word i.val)

def logLine (r : Log.Record) : String :=
  "[" ++ r.level.label ++ " " ++ r.source.name ++ "] " ++ r.message

end Chip8

def main (arguments : List String) : IO UInt32 := do
  let outcome ← Chip8.Program.run Chip8.RealFiles.access (← Chip8.freshGenerator) arguments
  IO.print outcome.output
  if let some complaint := outcome.complaint then IO.eprintln ("error: " ++ complaint)
  for r in outcome.log do IO.eprintln (Chip8.logLine r)
  return outcome.exitCode.toUInt32
