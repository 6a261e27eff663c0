import Chip8.CommandLine.Draft

namespace Chip8.CommandLine

/-- Passes a usage error on as what it is to the reader of the whole line. -/
def orStop {α : Type} : Except UsageError α → Except Stop α
  | .ok a => .ok a
  | .error e => .error (.misuse e)

def fail {α : Type} (e : UsageError) : Except Stop α := .error (.misuse e)

namespace Scope

/-- An option without a value in the same word. If it needs one, it waits for the next word. -/
def readSwitch (scope : Scope) (d : Draft) (switch : Switch) : Except Stop Draft := do
  let d ← orStop d.settle
  match switch with
  | .help => .error (.help scope.topic)
  | .version => .error .version
  | .setting s => if s.takesValue then .ok { d with last := some (.value s none) } else orStop (d.raise s)

/-- An option with a value in the same word. -/
def readAssignment (d : Draft) (switch : Switch) (value : String) : Except Stop Draft :=
  match switch with
  | .setting s => if s.takesValue then do orStop ((← orStop d.settle).assign s value) else fail .unwantedValue
  | .help | .version => fail .unwantedValue

/-- A word behind two dashes: a name, with a value behind the first equals sign if there is one. -/
def readLong (scope : Scope) (d : Draft) (word : List Char) : Except Stop Draft :=
  let (name, rest) := word.span (· != '=')
  match scope.long? (String.ofList name), rest with
  | none, _ => fail .unknownArgument
  | some switch, [] => scope.readSwitch d switch
  | some switch, _ :: value => readAssignment d switch (String.ofList value)

/-- Letters behind one dash. What stands behind a letter that takes a value is that value, less an
equals sign at its start. -/
def readLetters (scope : Scope) (d : Draft) : List Char → Except Stop Draft
  | [] => .ok d
  | letter :: rest =>
    match scope.short? letter with
    | none => fail .unknownArgument
    | some switch =>
      if switch.takesValue then
        match rest with
        | [] => scope.readSwitch d switch
        | '=' :: value => readAssignment d switch (String.ofList value)
        | value => readAssignment d switch (String.ofList value)
      else do scope.readLetters (← scope.readSwitch d switch) rest

/-- A word that is not an option. Behind a command there is room for one, the path. -/
def readPath (d : Draft) (word : String) : Except Stop Draft :=
  if d.hasPath then fail .unknownArgument
  else do
    let d ← orStop d.settle
    .ok { d with last := some (.path word) }

/-- A word on its own. A word that starts with a dash is always an option, unless it is a lone
dash. -/
def readWord (scope : Scope) (d : Draft) (word : String) : Except Stop Draft :=
  match word.toList with
  | '-' :: '-' :: rest => scope.readLong d rest
  | '-' :: letter :: rest => scope.readLetters d (letter :: rest)
  | _ =>
    match d.awaited?, scope with
    | some s, _ => .ok { d with last := some (.value s (some word)) }
    | none, program => fail .unknownCommand
    | none, _ => readPath d word

/-- The words behind a command, up to the end. Behind two dashes on their own no word is an
option. -/
def readWords (scope : Scope) (d : Draft) : List String → Except Stop Draft
  | [] => orStop d.settle
  | "--" :: rest => do orStop (← rest.foldlM readPath d).settle
  | word :: rest => do scope.readWords (← scope.readWord d word) rest

end Scope

namespace Draft

def defaultHz : UInt32 := 500

def defaultFps : UInt32 := 60

def runOptions (d : Draft) : RunOptions where
  path := d.path
  hz := d.hz.getD defaultHz
  fps := d.fps.getD defaultFps
  shiftVy := d.shiftVy
  incrementI := d.incrementI
  seed := d.seed
  paused := d.paused

def disassembleOptions (d : Draft) : Except Stop DisassembleOptions :=
  match d.path with
  | some path => .ok ⟨path, d.outputFile⟩
  | none => fail .missingArgument

end Draft

/-- The words that end the part before the command. -/
inductive CommandWord
  | run
  | disassemble
  | help
  deriving DecidableEq, Repr

namespace CommandWord

def named? : String → Option CommandWord
  | "run" => some run
  | "disassemble" => some disassemble
  | "help" => some help
  | _ => none

def topic : CommandWord → Topic
  | run => .run
  | disassemble => .disassemble
  | help => .help

end CommandWord

/-- The words behind `help`: nothing, or the one command it is asked about. -/
def readHelp : List String → Stop
  | [] => .help .program
  | [word] =>
    match CommandWord.named? word with
    | some command => .help command.topic
    | none => .misuse .unknownCommand
  | _ :: _ :: _ => .misuse .unknownCommand

/-- The command and its words. An option left unchecked before the command is checked last. -/
def readCommand (d : Draft) (word : CommandWord) (rest : List String) : Except Stop CommandLine :=
  match word with
  | .help => .error (readHelp rest)
  | .run => do
    let c ← Scope.run.readWords .empty rest
    let d ← orStop d.settle
    .ok ⟨.run c.runOptions, c.debug <|> d.debug⟩
  | .disassemble => do
    let c ← Scope.disassemble.readWords .empty rest
    let options ← c.disassembleOptions
    let d ← orStop d.settle
    .ok ⟨.disassemble options, c.debug <|> d.debug⟩

/-- The end of the words without a command. -/
def readNoCommand (d : Draft) : Except Stop CommandLine := do
  let d ← orStop d.settle
  fail (if d.debug.isSome then .missingCommand else .noArguments)

/-- The words from the start. A command cannot stand behind two dashes on their own. -/
def readProgram (d : Draft) : List String → Except Stop CommandLine
  | [] => readNoCommand d
  | "--" :: [] => readNoCommand d
  | "--" :: word :: _ =>
    fail (if (CommandWord.named? word).isSome then .unknownArgument else .unknownCommand)
  | word :: rest =>
    match d.awaited?, CommandWord.named? word with
    | none, some command => readCommand d command rest
    | _, _ => do readProgram (← Scope.program.readWord d word) rest

def parse (words : List String) : Except Stop CommandLine := readProgram .empty words

end Chip8.CommandLine
