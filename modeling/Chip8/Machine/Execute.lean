import Chip8.Instruction.Decode
import Chip8.Keypad
import Chip8.Machine.Basic
import Chip8.Machine.Dialect
import Chip8.Random.Generator

namespace Chip8

/-- What an instruction may use besides the machine itself. -/
structure Devices where
  memory : Memory
  keypad : Keypad
  random : Random.Generator
  deriving DecidableEq

/-- Whether an instruction was carried out. One that was not leaves the machine where it is, to try
the same instruction again. -/
inductive Update
  | changed
  | unchanged
  deriving DecidableEq, Repr

structure Execution where
  update : Update
  machine : Machine
  devices : Devices
  deriving DecidableEq

namespace Condition

def holds (m : Machine) (keypad : Keypad) : Condition → Bool
  | byteIs x byte => m.register x == byte
  | byteIsNot x byte => m.register x != byte
  | equal x y => m.register x == m.register y
  | different x y => m.register x != m.register y
  | keyHeld x => keypad.isHeld (m.register x)
  | keyFree x => !keypad.isHeld (m.register x)

end Condition

namespace Arithmetic

/-- What the first register becomes, and what the flag register reports, if anything: a carry, that
the lesser operand was taken from the greater, or the bit shifted out. -/
def result (dialect : Dialect) (vx vy : UInt8) : Arithmetic → UInt8 × Option Bool
  | copy => (vy, none)
  | or => (vx ||| vy, none)
  | and => (vx &&& vy, none)
  | xor => (vx ^^^ vy, none)
  | add => (vx + vy, some (255 < vx.toNat + vy.toNat))
  | subtract => (vx - vy, some (vy < vx))
  | subtractFrom => (vy - vx, some (vx < vy))
  | shiftRight =>
    let source := if dialect.shiftUsesVy then vy else vx
    (source >>> 1, some (source &&& 0x01 != 0))
  | shiftLeft =>
    let source := if dialect.shiftUsesVy then vy else vx
    (source <<< 1, some (source &&& 0x80 != 0))

end Arithmetic

namespace Machine

/-- Writes the flag before the result, so a result in VF is what remains there. -/
def arithmetic (dialect : Dialect) (m : Machine) (operation : Arithmetic) (x y : Register) :
    Machine :=
  match operation.result dialect (m.register x) (m.register y) with
  | (value, none) => m.setRegister x value
  | (value, some flag) => (m.setFlag flag).setRegister x value

def skipIf (m : Machine) (skip : Bool) : Machine := if skip then m.next.next else m.next

/-- Draws the sprite the index points at. VF reports whether a lit pixel was turned off. -/
def draw (m : Machine) (memory : Memory) (x y : Register) (rows : Nat) : Machine :=
  let sprite := memory.readAll m.index rows
  let top := FrameBuffer.origin FrameBuffer.height (m.register y).toNat
  let (erased, screen) := m.screen.drawRows (m.register x).toNat top sprite
  { m with screen }.setFlag erased

/-- Where the index stands after registers were stored or loaded through it. -/
def passIndex (dialect : Dialect) (m : Machine) (last : Register) : Machine :=
  if dialect.incrementIndex then { m with index := m.index + UInt16.ofNat (last.val + 1) } else m

def loadRegisters (m : Machine) (memory : Memory) (last : Register) : Machine :=
  { m with
    v := Vector.ofFn fun r : Register =>
      if r ≤ last then memory.read (m.index + UInt16.ofNat r.val) else m.register r }

def execute (dialect : Dialect) (m : Machine) (d : Devices) : Instruction → Execution
  | .clearScreen => ⟨.changed, { m with screen := .blank }.next, d⟩
  | .ret =>
    if m.sp = 0 then ⟨.unchanged, m, d⟩
    else match m.stack[(m.sp - 1).toNat]? with
      | some caller => ⟨.changed, { m with sp := m.sp - 1, pc := caller }.next, d⟩
      -- More calls are open than there are slots: no run comes to such a state, in which the
      -- lookup of the slot has no answer to give.
      | none => ⟨.unchanged, m, d⟩
  | .jump target =>
    if m.pc = target.toUInt16 then ⟨.unchanged, m, d⟩
    else ⟨.changed, { m with pc := target.toUInt16 }, d⟩
  | .call target =>
    if h : m.sp.toNat < 16 then
      ⟨.changed,
        { m with stack := m.stack.set m.sp.toNat m.pc, sp := m.sp + 1, pc := target.toUInt16 }, d⟩
    else ⟨.unchanged, m, d⟩
  | .skip condition => ⟨.changed, m.skipIf (condition.holds m d.keypad), d⟩
  | .setByte x byte => ⟨.changed, (m.setRegister x byte).next, d⟩
  | .addByte x byte => ⟨.changed, (m.setRegister x (m.register x + byte)).next, d⟩
  | .arithmetic operation x y => ⟨.changed, (m.arithmetic dialect operation x y).next, d⟩
  | .setIndex target => ⟨.changed, { m with index := target.toUInt16 }.next, d⟩
  | .jumpFromV0 base =>
    ⟨.changed, { m with pc := base.toUInt16 + (m.register 0).toUInt16 }, d⟩
  | .random x mask =>
    let (byte, random) := d.random.next
    ⟨.changed, (m.setRegister x (byte &&& mask)).next, { d with random }⟩
  | .draw x y rows =>
    if rows = 0 then ⟨.unchanged, m, d⟩
    else ⟨.changed, (m.draw d.memory x y rows.val).next, d⟩
  | .readDelay x => ⟨.changed, (m.setRegister x m.delay).next, d⟩
  | .waitForKey x =>
    match d.keypad.poll with
    | (some key, keypad) => ⟨.changed, (m.setRegister x key).next, { d with keypad }⟩
    | (none, keypad) => ⟨.unchanged, m, { d with keypad }⟩
  | .setDelay x => ⟨.changed, { m with delay := m.register x }.next, d⟩
  | .setSound x => ⟨.changed, { m with sound := m.register x }.next, d⟩
  | .addToIndex x => ⟨.changed, { m with index := m.index + (m.register x).toUInt16 }.next, d⟩
  | .pointAtDigit x => ⟨.changed, { m with index := Font.address (m.register x) }.next, d⟩
  | .storeDecimal x =>
    let digits := [m.register x / 100, m.register x / 10 % 10, m.register x % 10]
    ⟨.changed, m.next, { d with memory := d.memory.writeAll m.index digits }⟩
  | .storeRegisters last =>
    let memory := d.memory.writeAll m.index (m.v.toList.take (last.val + 1))
    ⟨.changed, (m.passIndex dialect last).next, { d with memory }⟩
  | .loadRegisters last =>
    ⟨.changed, ((m.loadRegisters d.memory last).passIndex dialect last).next, d⟩

/-- A word that is no instruction is never carried out. -/
def executeWord (dialect : Dialect) (m : Machine) (d : Devices) (w : Word) : Execution :=
  match Instruction.decode? w with
  | some i => m.execute dialect d i
  | none => ⟨.unchanged, m, d⟩

end Machine

end Chip8
