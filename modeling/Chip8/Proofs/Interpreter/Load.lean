import Chip8.Proofs.Interpreter.Restart
import Chip8.Proofs.Memory

namespace Chip8.Interpreter

/-- The program in place after an operation, if `rom` was in place before it. -/
def Operation.program (rom : List UInt8) : Operation → List UInt8
  | .load other => if other.length ≤ Memory.programLimit then other else rom
  | _ => rom

/-- The program in place after a run. -/
def programAfter (rom : List UInt8) (ops : List Operation) : List UInt8 :=
  ops.foldl Operation.program rom

/-- A reset restores the memory in which this program was just loaded. -/
def Restores (i : Interpreter) (rom : List UInt8) : Prop :=
  ∀ a (h : a < 4096), i.devices.memory.baseline[a] = Memory.laidOut rom a

theorem program_of_refused {rom : List UInt8} {op : Operation}
    (hop : ∀ other, op = .load other → ¬ other.length ≤ Memory.programLimit) :
    op.program rom = rom := by
  cases op with
  | load other => exact if_neg (hop other rfl)
  | _ => rfl

theorem memory_load {i : Interpreter} {rom : List UInt8} (h : rom.length ≤ Memory.programLimit) :
    (i.perform (.load rom)).2.devices.memory = ⟨Memory.image rom h, Memory.image rom h⟩ := by
  simp only [perform, load_fits i h]

theorem restores_load (i : Interpreter) {rom : List UInt8} (h : rom.length ≤ Memory.programLimit) :
    (i.perform (.load rom)).2.Restores rom := by
  intro a ha
  simp only [memory_load h, Memory.getElem_image]

theorem Restores.perform {i : Interpreter} {rom : List UInt8} (h : i.Restores rom)
    (op : Operation) : (i.perform op).2.Restores (op.program rom) := by
  by_cases hop : ∃ other, op = .load other ∧ other.length ≤ Memory.programLimit
  · obtain ⟨other, rfl, hfits⟩ := hop
    rw [Operation.program, if_pos hfits]
    exact restores_load i hfits
  · have hrefused : ∀ other, op = .load other → ¬ other.length ≤ Memory.programLimit :=
      fun other he hfits => hop ⟨other, he, hfits⟩
    intro a ha
    rw [program_of_refused hrefused]
    simp only [(SameLoad.perform i hrefused).baseline]
    exact h a ha

theorem Restores.after {i : Interpreter} {rom : List UInt8} (h : i.Restores rom)
    (ops : List Operation) : (i.after ops).Restores (programAfter rom ops) := by
  induction ops generalizing i rom with
  | nil => exact h
  | cons op ops ih => exact ih (h.perform op)

/-- A program that does not fit is refused and everything stays as it is. One that fits replaces all
of memory and of the image for resets, which from then on is that of the program loaded last and
which nothing but a load changes. -/
theorem load_is_all_or_nothing (i : Interpreter) (rom : List UInt8) :
    (3584 < rom.length →
      i.perform (.load rom) = (.refused (.tooLarge rom.length 3584), i)) ∧
    (rom.length ≤ 3584 →
      ∃ loaded, i.perform (.load rom) = (.done, loaded) ∧
        (∀ a (h : a < 4096),
          loaded.devices.memory.bytes[a] = Memory.laidOut rom a ∧
            loaded.devices.memory.baseline[a] = Memory.laidOut rom a) ∧
        ∀ ops a (h : a < 4096),
          (loaded.after ops).devices.memory.baseline[a] =
            Memory.laidOut (programAfter rom ops) a) ∧
    ∀ op, (∀ other, op = .load other → 3584 < other.length) →
      (i.perform op).2.devices.memory.baseline = i.devices.memory.baseline := by
  refine ⟨?_, ?_, ?_⟩
  · intro htoo
    simp only [perform, load_too_large i (Nat.not_le_of_lt htoo)]
    rfl
  · intro hlength
    have hfits : rom.length ≤ Memory.programLimit := hlength
    refine ⟨(i.perform (.load rom)).2, ?_, ?_, ?_⟩
    · simp only [perform, load_fits i hfits]
    · intro a ha
      refine ⟨?_, restores_load i hfits a ha⟩
      simp only [memory_load hfits, Memory.getElem_image]
    · exact (restores_load i hfits).after
  · intro op hop
    exact (SameLoad.perform i fun other he => Nat.not_le_of_lt (hop other he)).baseline

/-- A program of the greatest size over one that has written to memory, and a refused one later. -/
theorem load_at_limit_leaves_no_residue :
    let i := (new .modern (.ofSeed 7)).after
      [.load [0x60, 0x05, 0xA1, 0x00, 0xF0, 0x55], .cycle, .cycle, .cycle]
    let long : List UInt8 := List.replicate 3585 0x22
    let rom : List UInt8 := List.replicate 3584 0x11
    i.devices.memory.read 0x100 = 5 ∧
      (i.perform .cycle).2.devices.memory.baseline = i.devices.memory.baseline ∧
      i.perform (.load long) = (.refused (.tooLarge 3585 3584), i) ∧
      ∃ loaded, i.perform (.load rom) = (.done, loaded) ∧
        loaded.devices.memory.bytes[0x100] = 0 ∧ loaded.devices.memory.bytes[0xFFF] = 0x11 ∧
        (loaded.after [.cycle, .load long, .reset]).devices.memory.baseline[0xFFF] = 0x11 ∧
        (loaded.after [.cycle, .load [0x12], .reset]).devices.memory.baseline[0xFFF] = 0 := by
  intro i long rom
  have hwritten : i.devices.memory.read 0x100 = 5 := by decide +kernel
  have hlong : long.length = 3585 := List.length_replicate
  obtain ⟨hrefused, -, hkept⟩ := load_is_all_or_nothing i long
  obtain ⟨-, haccepted, -⟩ := load_is_all_or_nothing i rom
  obtain ⟨loaded, hload, hbytes, hlater⟩ := haccepted (Nat.le_of_eq List.length_replicate)
  refine ⟨hwritten, hkept .cycle nofun, ?_, loaded, hload, ?_, ?_, ?_, ?_⟩
  · rw [hrefused (by rw [hlong]; decide), hlong]
  · rw [(hbytes 0x100 (by decide)).1]
    decide
  · rw [(hbytes 0xFFF (by decide)).1]
    decide +kernel
  · rw [hlater _ 0xFFF (by decide)]
    decide +kernel
  · rw [hlater _ 0xFFF (by decide)]
    decide +kernel

end Chip8.Interpreter
