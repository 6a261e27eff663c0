import Chip8.Screen.FrameBuffer

namespace Chip8

structure Size where
  width : Nat
  height : Nat
  deriving DecidableEq, Repr

/-- What is asked of the window system. -/
structure Window where
  title : String
  size : Size
  minimalSize : Size
  /-- The surface covers the whole window. -/
  surface : Size
  /-- The pixels drawn on it, which it scales up. -/
  buffer : Size
  deriving DecidableEq, Repr

namespace Window

def baseTitle : String := "CHIP-8"

def scale : Nat := 10

def screenSize : Size := ⟨FrameBuffer.width, FrameBuffer.height⟩

def scaledSize : Size := ⟨FrameBuffer.width * scale, FrameBuffer.height * scale⟩

def wanted : Window := ⟨baseTitle, scaledSize, screenSize, scaledSize, screenSize⟩

/-- The title once there is a status to show. -/
def titleOf (status : String) : String := baseTitle ++ " - " ++ status

end Window

end Chip8
