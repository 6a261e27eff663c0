namespace Chip8.Demo

def program : List UInt8 := [
  0x12, 0x0C, 0xF0, 0x80, 0x80, 0x80, 0xF0, 0xF0, 0x90, 0xF0, 0x90, 0xF0,
  0x6E, 0x10, 0x60, 0x1B, 0x61, 0x0A, 0xA2, 0x02, 0xD0, 0x15, 0x80, 0xF0,
  0x60, 0x20, 0x61, 0x0A, 0xA2, 0x07, 0xD0, 0x15, 0x80, 0xF0, 0x60, 0x01,
  0x40, 0x00, 0x12, 0x2A, 0x12, 0x22, 0x6F, 0x03, 0x8E, 0xF5, 0x8F, 0x00,
  0xFE, 0x29, 0xFE, 0x65, 0x00, 0xEE, 0x60, 0xFF, 0x61, 0x00, 0xE1, 0xA1,
  0x60, 0x00, 0x61, 0x01, 0xE1, 0xA1, 0x60, 0x01, 0x61, 0x02, 0xE1, 0xA1,
  0x60, 0x02, 0x61, 0x03, 0xE1, 0xA1, 0x60, 0x03, 0x61, 0x04, 0xE1, 0xA1,
  0x60, 0x04, 0x61, 0x05, 0xE1, 0xA1, 0x60, 0x05, 0x61, 0x06, 0xE1, 0xA1,
  0x60, 0x06, 0x61, 0x07, 0xE1, 0xA1, 0x60, 0x07, 0x61, 0x08, 0xE1, 0xA1,
  0x60, 0x08, 0x61, 0x09, 0xE1, 0xA1, 0x60, 0x09, 0x61, 0x0A, 0xE1, 0xA1,
  0x60, 0x0A, 0x61, 0x0B, 0xE1, 0xA1, 0x60, 0x0B, 0x61, 0x0C, 0xE1, 0xA1,
  0x60, 0x0C, 0x61, 0x0D, 0xE1, 0xA1, 0x60, 0x0D, 0x61, 0x0E, 0xE1, 0xA1,
  0x60, 0x0E, 0x61, 0x0F, 0xE1, 0xA1, 0x60, 0x0F, 0x6F, 0x03, 0x8E, 0xF5,
  0x8F, 0x00, 0xFE, 0x29, 0xFE, 0x65, 0x00, 0xEE, 0x85, 0x20, 0x84, 0x10,
  0x83, 0x00, 0x66, 0x00, 0xF5, 0x33, 0xF2, 0x65, 0xF0, 0x29, 0xD3, 0x45,
  0x86, 0xF1, 0xF1, 0x29, 0x73, 0x05, 0xD3, 0x45, 0x86, 0xF1, 0xF2, 0x29,
  0x73, 0x05, 0xD3, 0x45, 0x86, 0xF1, 0x6F, 0x03, 0x8E, 0xF5, 0x8F, 0x60,
  0xFE, 0x29, 0xFE, 0x65, 0x00, 0xEE]

end Chip8.Demo
