import Chip8.Proofs.Machine.Execute
import Chip8.Proofs.Memory
import Chip8.Proofs.Screen.Pixels

namespace Chip8.Machine

open FrameBuffer

/-- Whether a pixel lies under a set bit of the sprite that the index points at, when its upper left
corner is where two registers say. -/
def spriteBit (m : Machine) (memory : Memory) (x y : Register) (rows column row : Nat) : Bool :=
  let left := if (m.register x).toNat < 64 then (m.register x).toNat else 0
  let top := if (m.register y).toNat < 32 then (m.register y).toNat else 0
  let byte := memory.byteAt ((m.index.toNat + (row - top)) % 65536)
  decide (top ≤ row ∧ row < top + rows ∧ left ≤ column ∧ column < left + 8) &&
    byte.toNat.testBit (7 - (column - left))

theorem covers_readAll (memory : Memory) (a : UInt16) (left top rows column row : Nat) :
    covers left top (memory.readAll a rows) column row =
      (decide (top ≤ row ∧ row < top + rows ∧ left ≤ column ∧ column < left + 8) &&
        (memory.byteAt ((a.toNat + (row - top)) % 65536)).toNat.testBit (7 - (column - left))) := by
  rw [covers, Memory.getElem?_readAll]
  by_cases htop : top ≤ row
  · by_cases hrow : row < top + rows
    · have hinside : row - top < rows := by omega
      simp [rowCovers, htop, hrow, hinside]
    · have hoff : ¬ row - top < rows := by omega
      simp [rowCovers_zero, hrow, hoff]
  · simp [htop]

theorem spriteBit_eq_covers (m : Machine) (memory : Memory) (x y : Register)
    (rows column row : Nat) :
    m.spriteBit memory x y rows column row =
      covers (origin width (m.register x).toNat) (origin height (m.register y).toNat)
        (memory.readAll m.index rows) column row :=
  (covers_readAll memory m.index _ _ rows column row).symm

theorem draw_eq (m : Machine) (memory : Memory) (x y : Register) (rows : Nat) :
    m.draw memory x y rows =
      let drawn := m.screen.drawRows (m.register x).toNat (origin height (m.register y).toNat)
        (memory.readAll m.index rows)
      { m with screen := drawn.2 }.setFlag drawn.1 := rfl

theorem pixel_draw (m : Machine) (memory : Memory) (x y : Register) (rows : Nat)
    {column row : Nat} (hcolumn : column < width) (hrow : row < height) :
    (m.draw memory x y rows).screen.pixel column row =
      (m.screen.pixel column row ^^ m.spriteBit memory x y rows column row) := by
  rw [spriteBit_eq_covers]
  exact pixel_drawRows _ _ _ _ hcolumn hrow

theorem flag_draw (m : Machine) (memory : Memory) (x y : Register) (rows : Nat) :
    (m.draw memory x y rows).register flag =
      if TurnsOff m.screen (m.draw memory x y rows).screen then 1 else 0 := by
  have hhit := drawRows_hit_iff_turnsOff m.screen (m.register x).toNat
    (origin height (m.register y).toNat) (memory.readAll m.index rows)
  rw [draw_eq]
  refine (register_setRegister _ _ _).trans ?_
  exact ite_congr (propext hhit) (fun _ => rfl) fun _ => rfl

theorem draw_frame (m : Machine) (memory : Memory) (x y : Register) (rows : Nat) :
    m.draw memory x y rows = { m with
      screen := (m.draw memory x y rows).screen
      v := m.v.set 15 ((m.draw memory x y rows).register flag) } := by
  have hflag : (m.draw memory x y rows).register flag = _ := register_setRegister _ flag _
  rw [hflag]
  rfl

theorem execute_draw {rows : Nibble} (h : rows ≠ 0) (dialect : Dialect) (m : Machine) (d : Devices)
    (x y : Register) :
    m.execute dialect d (.draw x y rows) = ⟨.changed, (m.draw d.memory x y rows.val).next, d⟩ :=
  if_neg h

/-- A sprite toggles the pixels under its set bits and no others. VF tells whether one of them was
turned off, and all else but the program counter stays. -/
theorem draw_toggles_pixels_under_sprite (dialect : Dialect) (m : Machine) (d : Devices)
    (x y : Register) {rows : Nibble} (hrows : rows ≠ 0) :
    let e := m.execute dialect d (.draw x y rows)
    e.update = .changed ∧ e.devices = d ∧
      (∀ column < width, ∀ row < height,
        e.machine.screen.pixel column row =
          (m.screen.pixel column row ^^ m.spriteBit d.memory x y rows.val column row)) ∧
      e.machine.register flag = (if TurnsOff m.screen e.machine.screen then 1 else 0) ∧
      e.machine = { m with
        pc := m.pc + 2, screen := e.machine.screen, v := m.v.set 15 (e.machine.register flag) } := by
  intro e
  have he : e = ⟨.changed, (m.draw d.memory x y rows.val).next, d⟩ := execute_draw hrows _ _ _ _ _
  rw [he]
  refine ⟨rfl, rfl, ?_, flag_draw m d.memory x y rows.val, ?_⟩
  · intro column hcolumn row hrow
    exact pixel_draw m d.memory x y rows.val hcolumn hrow
  · exact congrArg next (m.draw_frame d.memory x y rows.val)

/-- A sprite in the lower right corner, of which two rows lie past the end of memory, two at its
bottom and one below the screen. Its column is in VF, which the report then replaces. -/
theorem draw_wraps_memory_and_clips :
    let d : Devices := ⟨.blank, .idle, .ofSeed 7⟩
    let m : Machine := { initial with
      index := 0xFFFE
      v := ((Vector.replicate 16 0).set 15 62).set 1 28
      screen := (blank.drawByte 62 30 0x80).2 }
    let e := m.execute .modern d (.draw 0xF 1 5)
    (5 : Nibble) ≠ 0 ∧ e.machine.register flag = 1 ∧ e.machine.pc = 0x202 ∧
      m.screen.pixel 62 30 = true ∧ e.machine.screen.pixel 62 30 = false ∧
      e.machine.screen.pixel 63 30 = true ∧ e.machine.screen.pixel 0 30 = false ∧
      e.machine.screen.pixel 63 31 = false := by
  intro d m e
  have hrows : (5 : Nibble) ≠ 0 := by decide
  obtain ⟨-, -, hpixels, hflag, hframe⟩ := draw_toggles_pixels_under_sprite .modern m d 0xF 1 hrows
  have hlit : m.screen.pixel 62 30 = true := by decide +kernel
  have hoff : e.machine.screen.pixel 62 30 = false := by
    refine (hpixels 62 (by decide) 30 (by decide)).trans ?_
    decide +kernel
  have hturns : TurnsOff m.screen e.machine.screen :=
    ⟨62, by decide, 30, by decide, hlit, hoff⟩
  refine ⟨hrows, hflag.trans (if_pos hturns), congrArg pc hframe, hlit, hoff, ?_, ?_, ?_⟩
  · refine (hpixels 63 (by decide) 30 (by decide)).trans ?_
    decide +kernel
  · refine (hpixels 0 (by decide) 30 (by decide)).trans ?_
    decide +kernel
  · refine (hpixels 63 (by decide) 31 (by decide)).trans ?_
    decide +kernel

theorem register_draw_of_ne {r : Register} (h : r ≠ flag) (m : Machine) (memory : Memory)
    (x y : Register) (rows : Nat) : (m.draw memory x y rows).register r = m.register r :=
  register_setRegister_of_ne _ h _

/-- Drawn from registers other than VF, a sprite is the same the next time. -/
theorem spriteBit_draw {x y : Register} (hx : x ≠ flag) (hy : y ≠ flag) (m : Machine)
    (memory : Memory) (rows column row : Nat) :
    (m.draw memory x y rows).next.spriteBit memory x y rows column row =
      m.spriteBit memory x y rows column row := by
  have hleft : (m.draw memory x y rows).next.register x = m.register x :=
    register_draw_of_ne hx m memory x y rows
  have htop : (m.draw memory x y rows).next.register y = m.register y :=
    register_draw_of_ne hy m memory x y rows
  have hindex : (m.draw memory x y rows).next.index = m.index := rfl
  simp only [spriteBit, hleft, htop, hindex]

theorem screen_draw_draw {x y : Register} (hx : x ≠ flag) (hy : y ≠ flag) (m : Machine)
    (memory : Memory) (rows : Nat) :
    ((m.draw memory x y rows).next.draw memory x y rows).screen = m.screen := by
  apply ext_pixel
  intro column hcolumn row hrow
  have hfirst := m.pixel_draw memory x y rows hcolumn hrow
  rw [pixel_draw _ _ _ _ _ hcolumn hrow, spriteBit_draw hx hy]
  change ((m.draw memory x y rows).screen.pixel column row ^^ _) = _
  rw [hfirst, Bool.xor_assoc, Bool.xor_self, Bool.xor_false]

/-- Drawing a sprite again takes it off the screen, and what the first time turned on is what the
second reports. -/
theorem drawing_twice_restores_screen (dialect : Dialect) (m : Machine) (d : Devices)
    {x y : Register} {rows : Nibble} (hrows : rows ≠ 0) (hx : x ≠ flag) (hy : y ≠ flag) :
    let first := m.execute dialect d (.draw x y rows)
    let second := first.machine.execute dialect first.devices (.draw x y rows)
    first.update = .changed ∧ second.update = .changed ∧
      second.machine.screen = m.screen ∧
      first.machine.register flag =
        (if TurnsOff m.screen first.machine.screen then 1 else 0) ∧
      second.machine.register flag =
        (if TurnsOn m.screen first.machine.screen then 1 else 0) := by
  intro first second
  have hfirst : first = ⟨.changed, (m.draw d.memory x y rows.val).next, d⟩ :=
    execute_draw hrows _ _ _ _ _
  have hsecond : second =
      ⟨.changed, ((m.draw d.memory x y rows.val).next.draw d.memory x y rows.val).next, d⟩ := by
    simp only [second, hfirst]
    exact execute_draw hrows _ _ _ _ _
  have hback := screen_draw_draw hx hy m d.memory rows.val
  rw [hsecond, hfirst]
  refine ⟨rfl, rfl, hback, m.flag_draw d.memory x y rows.val, ?_⟩
  refine (flag_draw _ d.memory x y rows.val).trans ?_
  rw [hback]
  rfl

/-- The top of an eight in the lower right corner, over a line. -/
theorem drawing_digit_twice_at_edge :
    let d : Devices := ⟨.blank, .idle, .ofSeed 7⟩
    let m : Machine := { initial with
      index := Font.address 8
      v := ((Vector.replicate 16 0).set 2 61).set 1 30
      screen := (blank.drawByte 56 30 0xFF).2 }
    let first := m.execute .modern d (.draw 2 1 5)
    let second := first.machine.execute .modern first.devices (.draw 2 1 5)
    (5 : Nibble) ≠ 0 ∧ (2 : Register) ≠ flag ∧ (1 : Register) ≠ flag ∧
      m.screen ≠ first.machine.screen ∧ second.machine.screen = m.screen ∧
      first.machine.register flag = 1 ∧ second.machine.register flag = 1 := by
  intro d m first second
  have hrows : (5 : Nibble) ≠ 0 := by decide
  have hx : (2 : Register) ≠ flag := by decide
  have hy : (1 : Register) ≠ flag := by decide
  obtain ⟨-, -, hback, hfirst, hsecond⟩ :=
    drawing_twice_restores_screen .modern m d hrows hx hy
  obtain ⟨hne, hoff, hon⟩ : m.screen ≠ first.machine.screen ∧
      TurnsOff m.screen first.machine.screen ∧ TurnsOn m.screen first.machine.screen := by
    decide +kernel
  exact ⟨hrows, hx, hy, hne, hback, hfirst.trans (if_pos hoff), hsecond.trans (if_pos hon)⟩

end Chip8.Machine
