import Chip8.Instruction.Decode

namespace Chip8

/-- The last digit of the words that ask for an operation. -/
def Arithmetic.digit : Arithmetic → Nibble
  | copy => 0x0
  | or => 0x1
  | and => 0x2
  | xor => 0x3
  | add => 0x4
  | subtract => 0x5
  | shiftRight => 0x6
  | subtractFrom => 0x7
  | shiftLeft => 0xE

theorem Arithmetic.ofDigit?_eq_some_iff (digit : Nibble) (operation : Arithmetic) :
    ofDigit? digit = some operation ↔ digit = operation.digit := by
  revert digit
  cases operation <;> decide

namespace Word

def StandsForSkip (w : Word) : Condition → Prop
  | .byteIs x byte => w.kind = 0x3 ∧ w.x = x ∧ w.kk = byte
  | .byteIsNot x byte => w.kind = 0x4 ∧ w.x = x ∧ w.kk = byte
  | .equal x y => w.kind = 0x5 ∧ w.n = 0x0 ∧ w.x = x ∧ w.y = y
  | .different x y => w.kind = 0x9 ∧ w.n = 0x0 ∧ w.x = x ∧ w.y = y
  | .keyHeld x => w.kind = 0xE ∧ w.kk = 0x9E ∧ w.x = x
  | .keyFree x => w.kind = 0xE ∧ w.kk = 0xA1 ∧ w.x = x

/-- The word has the form of an instruction. -/
def StandsFor (w : Word) : Instruction → Prop
  | .clearScreen => w.kind = 0x0 ∧ w.kk = 0xE0
  | .ret => w.kind = 0x0 ∧ w.kk = 0xEE
  | .jump target => w.kind = 0x1 ∧ w.nnn = target
  | .call target => w.kind = 0x2 ∧ w.nnn = target
  | .skip condition => w.StandsForSkip condition
  | .setByte x byte => w.kind = 0x6 ∧ w.x = x ∧ w.kk = byte
  | .addByte x byte => w.kind = 0x7 ∧ w.x = x ∧ w.kk = byte
  | .arithmetic operation x y => w.kind = 0x8 ∧ w.n = operation.digit ∧ w.x = x ∧ w.y = y
  | .setIndex target => w.kind = 0xA ∧ w.nnn = target
  | .jumpFromV0 base => w.kind = 0xB ∧ w.nnn = base
  | .random x mask => w.kind = 0xC ∧ w.x = x ∧ w.kk = mask
  | .draw x y rows => w.kind = 0xD ∧ w.x = x ∧ w.y = y ∧ w.n = rows
  | .readDelay x => w.kind = 0xF ∧ w.kk = 0x07 ∧ w.x = x
  | .waitForKey x => w.kind = 0xF ∧ w.kk = 0x0A ∧ w.x = x
  | .setDelay x => w.kind = 0xF ∧ w.kk = 0x15 ∧ w.x = x
  | .setSound x => w.kind = 0xF ∧ w.kk = 0x18 ∧ w.x = x
  | .addToIndex x => w.kind = 0xF ∧ w.kk = 0x1E ∧ w.x = x
  | .pointAtDigit x => w.kind = 0xF ∧ w.kk = 0x29 ∧ w.x = x
  | .storeDecimal x => w.kind = 0xF ∧ w.kk = 0x33 ∧ w.x = x
  | .storeRegisters last => w.kind = 0xF ∧ w.kk = 0x55 ∧ w.x = last
  | .loadRegisters last => w.kind = 0xF ∧ w.kk = 0x65 ∧ w.x = last

end Word

namespace Instruction

variable {w : Word} {i : Instruction}

theorem standsFor_of_systemByte (hkind : w.kind = 0x0) (h : ofSystemByte? w.kk = some i) :
    w.StandsFor i := by
  unfold ofSystemByte? at h
  split at h <;> cases h <;> exact ⟨hkind, ‹_›⟩

theorem standsFor_of_keyByte (hkind : w.kind = 0xE) (h : ofKeyByte? w.x w.kk = some i) :
    w.StandsFor i := by
  unfold ofKeyByte? at h
  split at h <;> cases h <;> exact ⟨hkind, ‹_›, rfl⟩

theorem standsFor_of_deviceByte (hkind : w.kind = 0xF) (h : ofDeviceByte? w.x w.kk = some i) :
    w.StandsFor i := by
  unfold ofDeviceByte? at h
  split at h <;> cases h <;> exact ⟨hkind, ‹_›, rfl⟩

/-- Words are read by the table. -/
theorem standsFor_of_decode? (h : decode? w = some i) : w.StandsFor i := by
  unfold decode? at h
  split at h <;> rename_i hkind
  · exact standsFor_of_systemByte hkind h
  · cases h
    exact ⟨hkind, rfl⟩
  · cases h
    exact ⟨hkind, rfl⟩
  · cases h
    exact ⟨hkind, rfl, rfl⟩
  · cases h
    exact ⟨hkind, rfl, rfl⟩
  · split at h
    · rename_i hn
      cases h
      exact ⟨hkind, hn, rfl, rfl⟩
    · cases h
  · cases h
    exact ⟨hkind, rfl, rfl⟩
  · cases h
    exact ⟨hkind, rfl, rfl⟩
  · obtain ⟨operation, hdigit, rfl⟩ := Option.map_eq_some_iff.mp h
    exact ⟨hkind, (Arithmetic.ofDigit?_eq_some_iff _ _).mp hdigit, rfl, rfl⟩
  · split at h
    · rename_i hn
      cases h
      exact ⟨hkind, hn, rfl, rfl⟩
    · cases h
  · cases h
    exact ⟨hkind, rfl⟩
  · cases h
    exact ⟨hkind, rfl⟩
  · cases h
    exact ⟨hkind, rfl, rfl⟩
  · cases h
    exact ⟨hkind, rfl, rfl, rfl⟩
  · exact standsFor_of_keyByte hkind h
  -- The last family has no digit in the match: it is what the others leave.
  · have hlast : w.kind = 0xF := by grind
    exact standsFor_of_deviceByte hlast h

end Instruction

end Chip8
