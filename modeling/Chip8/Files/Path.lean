namespace Chip8

/-- Repeated slashes count as one. A dot stands for the directory it is found in, two dots for the
one above. -/
structure Path where
  /-- It starts at the root and not in the working directory. -/
  absolute : Bool
  steps : List String
  /-- It ends in a slash, so it can only mean a directory. -/
  trailingSlash : Bool
  deriving DecidableEq, Repr

namespace Path

/-- The pieces between slashes. -/
def pieces : List Char → List (List Char)
  | [] => [[]]
  | c :: rest =>
    if c = '/' then [] :: pieces rest
    else match pieces rest with
      | [] => [[c]]
      | piece :: more => (c :: piece) :: more

def parse (text : String) : Path where
  absolute := text.toList.head? == some '/'
  steps := ((pieces text.toList).filter (!·.isEmpty)).map String.ofList
  trailingSlash := text.toList.getLast? == some '/'

def text (p : Path) : String :=
  (if p.absolute then "/" else "") ++ "/".intercalate p.steps ++
    (if p.trailingSlash && !p.steps.isEmpty then "/" else "")

/-- Names no file and no directory. -/
def isEmpty (p : Path) : Bool := !p.absolute && p.steps.isEmpty

/-- The steps without dots that say nothing. A dot says something where a relative path starts. -/
def parts (p : Path) : List String :=
  match p.absolute, p.steps with
  | false, "." :: rest => "." :: rest.filter (· != ".")
  | _, steps => steps.filter (· != ".")

/-- The last part, if it is a name. -/
def fileName? (p : Path) : Option String :=
  p.parts.getLast?.filter fun name => name != "." && name != ".."

/-- What stands behind the last dot of a file name. A dot in front of everything does not count. -/
def extensionOf? (name : List Char) : Option (List Char) :=
  match name.reverse.span (· != '.') with
  | (_, []) => none
  | (_, ['.']) => none
  | (extension, _) => some extension.reverse

def extension? (p : Path) : Option String :=
  p.fileName?.bind fun name => (extensionOf? name.toList).map String.ofList

/-- The directory a file is in. That of a lone name is the empty path. -/
def directory (p : Path) : Path := ⟨p.absolute, p.parts.dropLast, false⟩

end Path

end Chip8
