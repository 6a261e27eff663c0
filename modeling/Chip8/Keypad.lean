namespace Chip8

structure Keypad where
  held : Vector Bool 16
  /-- An instruction waits for the next press. -/
  waiting : Bool
  /-- The press that ends the wait, until the instruction collects it. -/
  pending : Option UInt8
  deriving DecidableEq

namespace Keypad

/-- Keys above this do not exist: holding or pressing them has no effect. -/
def keyCount : Nat := 16

def idle : Keypad := ⟨Vector.replicate 16 false, false, none⟩

def setHeld (k : Keypad) (key : UInt8) (down : Bool) : Keypad :=
  if h : key.toNat < 16 then { k with held := k.held.set key.toNat down } else k

def isHeld (k : Keypad) (key : UInt8) : Bool :=
  if h : key.toNat < 16 then k.held[key.toNat] else false

/-- A fresh press. The latest one during a wait counts; without a wait it is lost. -/
def press (k : Keypad) (key : UInt8) : Keypad :=
  if k.waiting && key.toNat < keyCount then { k with pending := some key } else k

/-- Collects the press that ends the wait, or begins or continues to wait for one. -/
def poll (k : Keypad) : Option UInt8 × Keypad :=
  match k.pending with
  | some key => (some key, { k with waiting := false, pending := none })
  | none => (none, { k with waiting := true })

/-- Gives up a wait. Keys that are down stay down. -/
def release (k : Keypad) : Keypad := { k with waiting := false, pending := none }

end Keypad

end Chip8
