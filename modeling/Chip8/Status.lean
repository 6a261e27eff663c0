import Chip8.Interpreter.Basic
import Chip8.Pacer
import Chip8.Text.Hex

namespace Chip8

def statusLine (i : Interpreter) (p : Pacer) : String :=
  (if i.paused then "PAUSED" else "RUNNING") ++
    " | state " ++ toString i.position ++ "/" ++ toString i.history.capacity ++
    " | " ++ toString p.measuredHz.toNat ++ " Hz | " ++ toString p.measuredFps.toNat ++ " FPS" ++
    " | PC " ++ Hex.literal 3 i.machine.pc.toNat

end Chip8
