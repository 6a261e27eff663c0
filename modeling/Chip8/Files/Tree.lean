import Chip8.Files.Access

namespace Chip8

/-- The innermost name comes first; the root has none. -/
abbrev Location := List String

inductive Entry
  | file (bytes : List UInt8)
  | directory
  deriving DecidableEq, Repr

structure FileTree where
  entries : List (Location × Entry)
  /-- Where relative paths start. -/
  home : Location
  deriving DecidableEq, Repr

namespace FileTree

/-- The root is always there. -/
def lookup (t : FileTree) (l : Location) : Option Entry :=
  if l = [] then some .directory else t.entries.lookup l

def put (t : FileTree) (l : Location) (e : Entry) : FileTree :=
  { t with entries := (l, e) :: t.entries.filter fun other => other.1 != l }

/-- Where a step leads. Above the root is the root. -/
def enter (here : Location) (step : String) : Location :=
  if step = "." then here else if step = ".." then here.tail else step :: here

/-- Where steps lead. Each step needs a directory to start from; where the last one ends nothing
need be. -/
def walk (t : FileTree) (here : Location) : List String → Except FileError Location
  | [] => .ok here
  | step :: rest =>
    match t.lookup here with
    | some .directory => t.walk (enter here step) rest
    | some (.file _) => .error .notDirectory
    | none => .error .notFound

def locate (t : FileTree) (p : Path) : Except FileError Location :=
  if p.isEmpty then .error .notFound else t.walk (if p.absolute then [] else t.home) p.steps

def isDirectory (t : FileTree) (p : Path) : Bool :=
  match t.locate p with
  | .ok l => t.lookup l = some .directory
  | .error _ => false

def read (t : FileTree) (p : Path) : Except FileError (List UInt8) :=
  match t.locate p with
  | .error e => .error e
  | .ok l =>
    match t.lookup l with
    | none => .error .notFound
    | some .directory => .error .isDirectory
    | some (.file bytes) => if p.trailingSlash then .error .notDirectory else .ok bytes

/-- A path that can only mean a directory is refused, whatever is there. -/
def create (t : FileTree) (p : Path) : Except FileError FileTree :=
  match t.locate p with
  | .error e => .error e
  | .ok l =>
    if p.trailingSlash || t.lookup l = some .directory then .error .isDirectory
    else .ok (t.put l (.file []))

/-- Writes to a file that is there. -/
def write (t : FileTree) (p : Path) (bytes : List UInt8) : Except FileError FileTree :=
  match t.locate p with
  | .error e => .error e
  | .ok l =>
    match t.lookup l with
    | none => .error .notFound
    | some .directory => .error .isDirectory
    | some (.file _) => .ok (t.put l (.file bytes))

/-- Only the last directory is made; the one above it must be there. -/
def makeDirectory (t : FileTree) (p : Path) : Except FileError FileTree :=
  match t.locate p with
  | .error e => .error e
  | .ok l => if (t.lookup l).isSome then .error .alreadyExists else .ok (t.put l .directory)

/-- A directory that is already there is as good as a new one. -/
def ensureDirectory (t : FileTree) (p : Path) : Except FileError Unit × FileTree :=
  match t.makeDirectory p with
  | .ok t => (.ok (), t)
  | .error e => (if t.isDirectory p then .ok () else .error e, t)

/-- Makes the directory that steps lead to, given with the last step first. When it cannot be made
because one above it is missing, those above are made before it is tried again. What was made stays
when a later one fails. -/
def makeSteps (t : FileTree) (absolute : Bool) : List String → Except FileError Unit × FileTree
  | [] => (.ok (), t)
  | step :: above =>
    let p : Path := ⟨absolute, (step :: above).reverse, false⟩
    match t.makeDirectory p with
    | .error .notFound =>
      match t.makeSteps absolute above with
      | (.ok (), t) => t.ensureDirectory p
      | failed => failed
    | _ => t.ensureDirectory p

def makeDirectories (t : FileTree) (p : Path) : Except FileError Unit × FileTree :=
  t.makeSteps p.absolute p.steps.reverse

/-- What a change leaves: the new tree, or the old one and the reason. -/
def settle (t : FileTree) : Except FileError FileTree → Except FileError Unit × FileTree
  | .ok t => (.ok (), t)
  | .error e => (.error e, t)

def access : FileAccess (StateM FileTree) where
  read p := fun t => (t.read p, t)
  makeDirectories p := fun t => t.makeDirectories p
  create p := fun t => t.settle (t.create p)
  write p bytes := fun t => t.settle (t.write p bytes)

end FileTree

end Chip8
