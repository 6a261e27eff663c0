import Chip8.Screen.FrameBuffer

namespace Chip8.Picture

/-- Red, green, blue and opacity of a lit pixel. -/
def lit : List UInt8 := [0x33, 0xFF, 0x66, 0xFF]

def dark : List UInt8 := [0x00, 0x00, 0x00, 0xFF]

def colour (on : Bool) : List UInt8 := if on then lit else dark

/-- Paints one pixel over every four bytes of a surface, as far as both reach. -/
def paint : List Bool → List UInt8 → List UInt8
  | on :: pixels, _ :: _ :: _ :: _ :: rest => colour on ++ paint pixels rest
  | _, rest => rest

def render (screen : FrameBuffer) (surface : List UInt8) : List UInt8 := paint screen.pixels surface

/-- Bytes of a surface with room for every pixel. -/
def surfaceSize : Nat := FrameBuffer.width * FrameBuffer.height * 4

def emptySurface : List UInt8 := List.replicate surfaceSize 0

end Chip8.Picture
