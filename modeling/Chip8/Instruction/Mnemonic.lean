import Chip8.Instruction.Decode
import Chip8.Text.Hex

namespace Chip8

namespace Register

def text (r : Register) : String := "V" ++ Hex.text 1 r.val

end Register

namespace Arithmetic

def name : Arithmetic → String
  | .copy => "LD"
  | .or => "OR"
  | .and => "AND"
  | .xor => "XOR"
  | .add => "ADD"
  | .subtract => "SUB"
  | .shiftRight => "SHR"
  | .subtractFrom => "SUBN"
  | .shiftLeft => "SHL"

end Arithmetic

namespace Instruction

def byteText (b : UInt8) : String := Hex.literal 2 b.toNat

def addressText (a : Address) : String := Hex.literal 3 a.val

def mnemonic : Instruction → String
  | .clearScreen => "CLS"
  | .ret => "RET"
  | .jump a => "JP " ++ addressText a
  | .call a => "CALL " ++ addressText a
  | .skip (.byteIs x b) => "SE " ++ Register.text x ++ ", " ++ byteText b
  | .skip (.byteIsNot x b) => "SNE " ++ Register.text x ++ ", " ++ byteText b
  | .skip (.equal x y) => "SE " ++ Register.text x ++ ", " ++ Register.text y
  | .skip (.different x y) => "SNE " ++ Register.text x ++ ", " ++ Register.text y
  | .skip (.keyHeld x) => "SKP " ++ Register.text x
  | .skip (.keyFree x) => "SKNP " ++ Register.text x
  | .setByte x b => "LD " ++ Register.text x ++ ", " ++ byteText b
  | .addByte x b => "ADD " ++ Register.text x ++ ", " ++ byteText b
  | .arithmetic op x y => op.name ++ " " ++ Register.text x ++ ", " ++ Register.text y
  | .setIndex a => "LD I, " ++ addressText a
  | .jumpFromV0 a => "JP V0, " ++ addressText a
  | .random x b => "RND " ++ Register.text x ++ ", " ++ byteText b
  | .draw x y rows =>
    "DRW " ++ Register.text x ++ ", " ++ Register.text y ++ ", " ++ toString rows.val
  | .readDelay x => "LD " ++ Register.text x ++ ", DT"
  | .waitForKey x => "LD " ++ Register.text x ++ ", K"
  | .setDelay x => "LD DT, " ++ Register.text x
  | .setSound x => "LD ST, " ++ Register.text x
  | .addToIndex x => "ADD I, " ++ Register.text x
  | .pointAtDigit x => "LD F, " ++ Register.text x
  | .storeDecimal x => "LD B, " ++ Register.text x
  | .storeRegisters x => "LD [I], " ++ Register.text x
  | .loadRegisters x => "LD " ++ Register.text x ++ ", [I]"

end Instruction

namespace Word

/-- The four digits. -/
def dump (w : Word) : String := String.ofList (w.nibbles.map fun d => Hex.digit d.val)

def mnemonic (w : Word) : String :=
  match Instruction.decode? w with
  | some i => i.mnemonic
  | none => "???"

end Word

end Chip8
