import Chip8.CommandLine.Help
import Chip8.CommandLine.Parse
import Chip8.Disassembly
import Chip8.Files.Tree
import Chip8.Instruction.Mnemonic
import Chip8.Interpreter.MemoryView
import Chip8.Interpreter.Operation
import Chip8.Listing
import Chip8.Machine.Execute
import Chip8.Main
import Chip8.Memory.Basic
import Chip8.Memory.Demo
import Chip8.Program
import Chip8.Proofs.Interpreter.Run
import Chip8.Screen.FrameBuffer
import Chip8.Session.Event
import Chip8.Status
import Chip8.Text.BoundedBuffer
import Chip8.Proofs.Interpreter.Debugging
import Chip8.Proofs.Interpreter.Restart
import Chip8.Proofs.Interpreter.Retention
import Chip8.Proofs.Interpreter.Halt
import Chip8.Proofs.Interpreter.KeyWait
import Chip8.Proofs.Interpreter.Randomness
import Chip8.Proofs.Machine.Bounds
import Chip8.Proofs.Interpreter.Bounds
import Chip8.Proofs.Pacer
import Chip8.Proofs.Pacer.Windows
import Chip8.Proofs.Session.Run
import Chip8.Proofs.Session.Pace
import Chip8.Proofs.Session.Rates
import Chip8.Proofs.Session.KeyOrder
import Chip8.Proofs.Disassembly
import Chip8.Proofs.Machine.CallStack
import Chip8.Proofs.Interpreter.Load
import Chip8.Proofs.Machine.Draw
import Chip8.Proofs.Machine.Footprint
import Chip8.Proofs.Screen.Strokes
import Chip8.Proofs.Machine.Flag
import Chip8.Proofs.Interpreter.Dialect
import Chip8.Proofs.Interpreter.MemoryView
import Chip8.Proofs.Instruction.Assembly
import Chip8.Proofs.Screen.Picture
import Chip8.Proofs.Screen.Count
import Chip8.Proofs.Interpreter.Demo
