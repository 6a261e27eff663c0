import Chip8.Proofs.Instruction.Form
import Chip8.Proofs.Machine.Execute
import Chip8.Proofs.Machine.Stall

namespace Chip8

namespace Arithmetic

/-- What an operation on two bytes computes and what it reports, in unbounded numbers. Those that
only move or combine bits report nothing. -/
def inNumbers (dialect : Dialect) (a b : Int) : Arithmetic → Option (Int × Int)
  | add => some ((a + b) % 256, if 255 < a + b then 1 else 0)
  | subtract => some ((a - b) % 256, if b < a then 1 else 0)
  | subtractFrom => some ((b - a) % 256, if a < b then 1 else 0)
  | shiftRight =>
    let source := if dialect.shiftUsesVy then b else a
    some (source / 2, source % 2)
  | shiftLeft =>
    let source := if dialect.shiftUsesVy then b else a
    some (2 * source % 256, source / 128)
  | copy | or | and | xor => none

theorem toNat_sub (a b : UInt8) : ((a - b).toNat : Int) = ((a.toNat : Int) - b.toNat) % 256 := by
  have ha := a.toNat_lt
  have hb := b.toNat_lt
  rw [UInt8.toNat_sub]
  omega

theorem toNat_shiftRight_one (a : UInt8) : (a >>> 1).toNat = a.toNat / 2 := by
  rw [UInt8.toNat_shiftRight]
  exact Nat.shiftRight_eq_div_pow a.toNat 1

theorem toNat_shiftLeft_one (a : UInt8) : (a <<< 1).toNat = 2 * a.toNat % 256 := by
  rw [UInt8.toNat_shiftLeft, Nat.mul_comm]
  exact congrArg (· % 256) (Nat.shiftLeft_eq a.toNat 1)

theorem lowest_bit (a : UInt8) : (a &&& 0x01 != 0) = decide (a.toNat % 2 = 1) := by
  have hall : ∀ n : Fin 256, (UInt8.ofNat n.val &&& 0x01 != 0) = decide (n.val % 2 = 1) := by
    decide +kernel
  simpa using hall ⟨a.toNat, a.toNat_lt⟩

theorem highest_bit (a : UInt8) : (a &&& 0x80 != 0) = decide (128 ≤ a.toNat) := by
  have hall : ∀ n : Fin 256, (UInt8.ofNat n.val &&& 0x80 != 0) = decide (128 ≤ n.val) := by
    decide +kernel
  simpa using hall ⟨a.toNat, a.toNat_lt⟩

/-- The arithmetic of bytes is that of numbers. -/
theorem result_inNumbers {dialect : Dialect} {a b : UInt8} {operation : Arithmetic}
    {value report : Int}
    (h : operation.inNumbers dialect a.toNat b.toNat = some (value, report)) :
    ∃ byte on, operation.result dialect a b = (byte, some on) ∧ (byte.toNat : Int) = value ∧
      (if on then 1 else 0) = report := by
  have hsource : (if dialect.shiftUsesVy then (b.toNat : Int) else a.toNat) =
      (if dialect.shiftUsesVy then b else a).toNat := by
    split <;> rfl
  cases operation with
  | add =>
    cases h
    refine ⟨_, _, rfl, ?_, ?_⟩
    · rw [UInt8.toNat_add]
      rfl
    · simp only [decide_eq_true_eq]
      omega
  | subtract =>
    cases h
    refine ⟨_, _, rfl, toNat_sub a b, ?_⟩
    simp only [decide_eq_true_eq, UInt8.lt_iff_toNat_lt, Int.ofNat_lt]
  | subtractFrom =>
    cases h
    refine ⟨_, _, rfl, toNat_sub b a, ?_⟩
    simp only [decide_eq_true_eq, UInt8.lt_iff_toNat_lt, Int.ofNat_lt]
  | shiftRight =>
    simp only [inNumbers, hsource] at h
    cases h
    refine ⟨_, _, rfl, ?_, ?_⟩
    · rw [toNat_shiftRight_one]
      rfl
    · rw [lowest_bit]
      simp only [decide_eq_true_eq]
      omega
  | shiftLeft =>
    simp only [inNumbers, hsource] at h
    cases h
    refine ⟨_, _, rfl, ?_, ?_⟩
    · rw [toNat_shiftLeft_one]
      rfl
    · have hlt := (if dialect.shiftUsesVy then b else a).toNat_lt
      rw [highest_bit]
      simp only [decide_eq_true_eq]
      omega
  | _ => cases h

end Arithmetic

theorem Instruction.decode?_arithmetic {w : Word} {operation : Arithmetic} (hkind : w.kind = 0x8)
    (hn : w.n = operation.digit) : decode? w = some (.arithmetic operation w.x w.y) := by
  have hdigit := (Arithmetic.ofDigit?_eq_some_iff w.n operation).mpr hn
  simp only [decode?, hkind, hdigit, Option.map_some]

namespace Machine

theorem arithmetic_of_reports {dialect : Dialect} {m : Machine} {operation : Arithmetic}
    {x y : Register} {byte : UInt8} {on : Bool}
    (h : operation.result dialect (m.register x) (m.register y) = (byte, some on)) :
    m.arithmetic dialect operation x y = (m.setFlag on).setRegister x byte := by
  simp only [arithmetic, h]

/-- The result is written over the report, not the other way round. -/
theorem register_flag_then_result (m : Machine) (on : Bool) (x : Register) (byte : UInt8) :
    ((m.setFlag on).setRegister x byte).register flag =
      if x = flag then byte else if on then 1 else 0 := by
  by_cases hx : x = flag
  · rw [if_pos hx, ← hx]
    exact register_setRegister _ x byte
  · rw [if_neg hx, register_setRegister_of_ne _ (Ne.symm hx)]
    exact register_setRegister m flag _

/-- Whichever registers a word of arithmetic names, its result is what it leaves in the first, and
its report is what it leaves in VF, unless the result is there. Nothing else changes but the program
counter. -/
theorem arithmetic_reports_in_flag (dialect : Dialect) (m : Machine) (d : Devices) {w : Word}
    {operation : Arithmetic} (hkind : w.kind = 0x8) (hn : w.n = operation.digit)
    {value report : Int}
    (hreports : operation.inNumbers dialect (m.register w.x).toNat (m.register w.y).toNat =
      some (value, report)) :
    let e := m.executeWord dialect d w
    e.update = .changed ∧
      ((e.machine.register w.x).toNat : Int) = value ∧
      ((e.machine.register flag).toNat : Int) = (if w.x = flag then value else report) ∧
      (∀ r, r ≠ w.x → r ≠ flag → e.machine.register r = m.register r) ∧
      e.machine = { m with v := e.machine.v, pc := m.pc + 2 } ∧
      e.devices = d := by
  intro e
  obtain ⟨byte, on, hresult, hvalue, hreport⟩ := Arithmetic.result_inNumbers hreports
  have he : e = ⟨.changed, ((m.setFlag on).setRegister w.x byte).next, d⟩ := by
    rw [← arithmetic_of_reports hresult]
    exact executeWord_some (Instruction.decode?_arithmetic hkind hn) dialect m d
  have hregister (r : Register) :
      e.machine.register r = ((m.setFlag on).setRegister w.x byte).register r := by
    rw [he]
    rfl
  refine ⟨by rw [he], ?_, ?_, ?_, ?_, by rw [he]⟩
  · rw [hregister, register_setRegister, hvalue]
  · rw [hregister, register_flag_then_result, ← hvalue, ← hreport]
    cases on <;> split <;> rfl
  · intro r hx hflag
    rw [hregister, register_setRegister_of_ne _ hx]
    exact register_setRegister_of_ne m hflag _
  · rw [he]
    rfl

/-- VF is shifted into V3 and then holds the bit that fell out of it. Added to itself, it holds the
sum although there is a carry. -/
theorem flag_is_operand_report_and_result :
    let d : Devices := ⟨.blank, .idle, .ofSeed 7⟩
    let m : Machine := (initial.setRegister flag 0x93).setRegister 0 0xAA
    let shifted := m.executeWord .cosmacVip d 0x83F6
    let doubled := m.executeWord .cosmacVip d 0x8FF4
    (shifted.machine.register 3).toNat = (0x49 : Int) ∧
      (shifted.machine.register flag).toNat = (1 : Int) ∧
      (doubled.machine.register flag).toNat = (0x26 : Int) ∧
      doubled.machine.register 0 = 0xAA ∧ doubled.machine.pc = 0x202 ∧ doubled.devices = d := by
  intro d m shifted doubled
  have hshift : Arithmetic.shiftRight.inNumbers .cosmacVip (m.register (Word.x 0x83F6)).toNat
      (m.register (Word.y 0x83F6)).toNat = some (0x49, 1) := by decide
  have hsum : Arithmetic.add.inNumbers .cosmacVip (m.register (Word.x 0x8FF4)).toNat
      (m.register (Word.y 0x8FF4)).toNat = some (0x26, 1) := by decide
  obtain ⟨-, hshifted, hbit, -⟩ :=
    arithmetic_reports_in_flag .cosmacVip m d (by decide) (by decide) hshift
  obtain ⟨-, -, hdoubled, hothers, hframe, hdevices⟩ :=
    arithmetic_reports_in_flag .cosmacVip m d (by decide) (by decide) hsum
  exact ⟨hshifted, hbit, hdoubled, hothers 0 (by decide) (by decide), congrArg pc hframe, hdevices⟩

end Machine

end Chip8
