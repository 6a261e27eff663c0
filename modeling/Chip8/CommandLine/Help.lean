import Chip8.CommandLine.Basic

namespace Chip8.CommandLine

def version : String := "chip8-rewind 0.1.0\n"

def unlines (lines : List String) : String := String.join (lines.map (· ++ "\n"))

def Topic.text : Topic → String
  | .program => unlines [
      "A CHIP-8 interpreter with a rewindable execution history.",
      "",
      "Usage: chip8-rewind [OPTIONS] <COMMAND>",
      "",
      "Commands:",
      "  run          Run a ROM in a window",
      "  disassemble  Write a disassembly listing of a ROM",
      "  help         Print this message or the help of the given subcommand(s)",
      "",
      "Options:",
      "  -d, --debug <DEBUG>  Verbosity of debug logging [possible values: info, debug, trace, error]",
      "  -h, --help           Print help",
      "  -V, --version        Print version"]
  | .run => unlines [
      "Run a ROM in a window",
      "",
      "Usage: chip8-rewind run [OPTIONS] [PATH]",
      "",
      "Arguments:",
      "  [PATH]  The path to the ROM; the built-in demo runs when omitted",
      "",
      "Options:",
      "      --hz <HZ>        Instructions executed per second [default: 500]",
      "      --fps <FPS>      Frames drawn per second; timers tick once per frame [default: 60]",
      "  -d, --debug <DEBUG>  Verbosity of debug logging [possible values: info, debug, trace, error]",
      "      --shift-vy       SHR/SHL copy Vy into Vx before shifting",
      "      --increment-i    LD [I], Vx and LD Vx, [I] advance I past the last register",
      "      --seed <SEED>    Seed for RND, for reproducible runs",
      "      --paused         Start paused",
      "  -h, --help           Print help"]
  | .disassemble => unlines [
      "Write a disassembly listing of a ROM",
      "",
      "Usage: chip8-rewind disassemble [OPTIONS] <PATH>",
      "",
      "Arguments:",
      "  <PATH>  The path to the ROM",
      "",
      "Options:",
      "  -o, --output-file <OUTPUT_FILE>  Where to output the disassembled ROM",
      "  -d, --debug <DEBUG>              Verbosity of debug logging [possible values: info, debug, trace, error]",
      "  -h, --help                       Print help"]
  | .help => unlines [
      "Print this message or the help of the given subcommand(s)",
      "",
      "Usage: chip8-rewind help [COMMAND]...",
      "",
      "Arguments:",
      "  [COMMAND]...  Print help for the subcommand(s)"]

end Chip8.CommandLine
