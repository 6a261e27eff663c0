import Chip8.Proofs.Instruction.Form
import Chip8.Proofs.Machine.Draw
import Chip8.Proofs.Machine.Stall
import Chip8.Proofs.Machine.Transfer

namespace Chip8

/-- A part of the machine, but for the program counter, or of the devices around it. -/
inductive Place
  | register (r : Register)
  | index
  | delay
  | sound
  | sp
  /-- A slot of the call stack, in use or not. -/
  | slot (k : Fin 16)
  | screen
  /-- A byte of memory. -/
  | byte (a : Nat)
  /-- The image that a reset restores. -/
  | baseline
  | held
  | waiting
  | pending
  | random

/-- What an execution leaves at a place is what was there before. -/
def Place.Kept (m : Machine) (d : Devices) (e : Execution) : Place → Prop
  | .register r => e.machine.register r = m.register r
  | .index => e.machine.index = m.index
  | .delay => e.machine.delay = m.delay
  | .sound => e.machine.sound = m.sound
  | .sp => e.machine.sp = m.sp
  | .slot k => e.machine.stack[k.val] = m.stack[k.val]
  | .screen => e.machine.screen = m.screen
  | .byte a => e.devices.memory.byteAt a = d.memory.byteAt a
  | .baseline => e.devices.memory.baseline = d.memory.baseline
  | .held => e.devices.keypad.held = d.keypad.held
  | .waiting => e.devices.keypad.waiting = d.keypad.waiting
  | .pending => e.devices.keypad.pending = d.keypad.pending
  | .random => e.devices.random = d.random

theorem Place.Kept.trans {p : Place} {m n : Machine} {d d' : Devices} {u : Update} {e : Execution}
    (first : p.Kept m d ⟨u, n, d'⟩) (second : p.Kept n d' e) : p.Kept m d e := by
  cases p <;> exact Eq.trans second first

attribute [ext] Machine Memory Keypad Devices

/-- There is nothing else besides the places and the program counter. -/
theorem Place.eq_of_kept {m : Machine} {d : Devices} {e : Execution}
    (h : ∀ p : Place, p.Kept m d e) :
    e.machine = { m with pc := e.machine.pc } ∧ e.devices = d := by
  have hregisters : e.machine.v = m.v := Vector.ext fun k hk => h (.register ⟨k, hk⟩)
  have hstack : e.machine.stack = m.stack := Vector.ext fun k hk => h (.slot ⟨k, hk⟩)
  have hbytes : e.devices.memory.bytes = d.memory.bytes := by
    refine Vector.ext fun a ha => ?_
    have hbyte : e.devices.memory.byteAt a = d.memory.byteAt a := h (.byte a)
    simpa [Memory.byteAt, ha] using hbyte
  exact ⟨Machine.ext rfl (h .index) (h .delay) (h .sound) (h .sp) hregisters hstack (h .screen),
    Devices.ext (Memory.ext hbytes (h .baseline))
      (Keypad.ext (h .held) (h .waiting) (h .pending)) (h .random)⟩

/-- The places that a word may write. -/
inductive Word.Writes (w : Word) (dialect : Dialect) (m : Machine) : Place → Prop
  | result (h : w.kind = 0x6 ∨ w.kind = 0x7 ∨ w.kind = 0x8 ∨ w.kind = 0xC) :
    Writes w dialect m (.register w.x)
  | reading (h : w.kind = 0xF) (hkk : w.kk = 0x07 ∨ w.kk = 0x0A) :
    Writes w dialect m (.register w.x)
  /-- A carry, a borrow or the bit shifted out. -/
  | report (h : w.kind = 0x8)
    (hn : w.n = 0x4 ∨ w.n = 0x5 ∨ w.n = 0x6 ∨ w.n = 0x7 ∨ w.n = 0xE) :
    Writes w dialect m (.register Machine.flag)
  | collision (h : w.kind = 0xD) : Writes w dialect m (.register Machine.flag)
  | loaded (h : w.kind = 0xF) (hkk : w.kk = 0x65) {r : Register} (hr : r ≤ w.x) :
    Writes w dialect m (.register r)
  | indexSet (h : w.kind = 0xA) : Writes w dialect m .index
  | indexMoved (h : w.kind = 0xF) (hkk : w.kk = 0x1E ∨ w.kk = 0x29) : Writes w dialect m .index
  | indexPassed (hdialect : dialect.incrementIndex = true) (h : w.kind = 0xF)
    (hkk : w.kk = 0x55 ∨ w.kk = 0x65) : Writes w dialect m .index
  | delay (h : w.kind = 0xF) (hkk : w.kk = 0x15) : Writes w dialect m .delay
  | sound (h : w.kind = 0xF) (hkk : w.kk = 0x18) : Writes w dialect m .sound
  | called (h : w.kind = 0x2) : Writes w dialect m .sp
  | returned (h : w.kind = 0x0) (hkk : w.kk = 0xEE) : Writes w dialect m .sp
  | caller (h : w.kind = 0x2) {k : Fin 16} (hk : k.val = m.sp.toNat) : Writes w dialect m (.slot k)
  | cleared (h : w.kind = 0x0) (hkk : w.kk = 0xE0) : Writes w dialect m .screen
  | drawn (h : w.kind = 0xD) : Writes w dialect m .screen
  | decimal (h : w.kind = 0xF) (hkk : w.kk = 0x33) {k : Nat} (hk : k ≤ 2)
    (hsize : (m.index.toNat + k) % 65536 < 0x1000) :
    Writes w dialect m (.byte ((m.index.toNat + k) % 65536))
  | stored (h : w.kind = 0xF) (hkk : w.kk = 0x55) {k : Nat} (hk : k ≤ w.x.val)
    (hsize : (m.index.toNat + k) % 65536 < 0x1000) :
    Writes w dialect m (.byte ((m.index.toNat + k) % 65536))
  | wait (h : w.kind = 0xF) (hkk : w.kk = 0x0A) : Writes w dialect m .waiting
  | collected (h : w.kind = 0xF) (hkk : w.kk = 0x0A) : Writes w dialect m .pending
  | random (h : w.kind = 0xC) : Writes w dialect m .random

/-- The words that go elsewhere than on: a return, a jump, a call and a jump by V0. -/
def Word.Branches (w : Word) : Prop :=
  (w.kind = 0x0 ∧ w.kk = 0xEE) ∨ w.kind = 0x1 ∨ w.kind = 0x2 ∨ w.kind = 0xB

instance (w : Word) : Decidable w.Branches := inferInstanceAs (Decidable (_ ∨ _))

/-- The words that may pass over their successor. -/
def Word.Skips (w : Word) : Prop :=
  w.kind = 0x3 ∨ w.kind = 0x4 ∨ (w.kind = 0x5 ∨ w.kind = 0x9) ∧ w.n = 0x0 ∨
    w.kind = 0xE ∧ (w.kk = 0x9E ∨ w.kk = 0xA1)

instance (w : Word) : Decidable w.Skips := inferInstanceAs (Decidable (_ ∨ _))

namespace Machine

variable {m : Machine} {d : Devices} {dialect : Dialect} {w : Word} {p : Place}

theorem ne_of_writes {q : Place} (hq : w.Writes dialect m q) (hp : ¬ w.Writes dialect m p) :
    p ≠ q := by
  rintro rfl
  exact hp hq

theorem kept_of_pc (p : Place) (m : Machine) (d : Devices) (u : Update) (pc : UInt16) :
    p.Kept m d ⟨u, { m with pc }, d⟩ := by
  cases p <;> rfl

theorem kept_setRegister {x : Register} (h : p ≠ .register x) (m : Machine) (d : Devices)
    (byte : UInt8) (u : Update) (pc : UInt16) :
    p.Kept m d ⟨u, { m.setRegister x byte with pc }, d⟩ := by
  cases p with
  | register r => exact m.register_setRegister_of_ne (fun he => h (congrArg _ he)) byte
  | _ => rfl

/-- An operation writes the first register, and some write VF before. -/
theorem arithmetic_cases (dialect : Dialect) (m : Machine) (operation : Arithmetic)
    (x y : Register) :
    (∃ value, m.arithmetic dialect operation x y = m.setRegister x value) ∨
      ((operation.digit = 0x4 ∨ operation.digit = 0x5 ∨ operation.digit = 0x6 ∨
          operation.digit = 0x7 ∨ operation.digit = 0xE) ∧
        ∃ on value, m.arithmetic dialect operation x y = (m.setFlag on).setRegister x value) := by
  cases operation with
  | copy => exact .inl ⟨_, rfl⟩
  | or => exact .inl ⟨_, rfl⟩
  | and => exact .inl ⟨_, rfl⟩
  | xor => exact .inl ⟨_, rfl⟩
  | _ => exact .inr ⟨by decide, _, _, rfl⟩

theorem kept_arithmetic {operation : Arithmetic} {x y : Register} (h : w.kind = 0x8)
    (hn : w.n = operation.digit) (hx : w.x = x) (hp : ¬ w.Writes dialect m p) (d : Devices) :
    p.Kept m d ⟨.changed, (m.arithmetic dialect operation x y).next, d⟩ := by
  have hresult : p ≠ .register x := hx ▸ ne_of_writes (.result (.inr (.inr (.inl h)))) hp
  rcases m.arithmetic_cases dialect operation x y with ⟨value, he⟩ | ⟨hreports, on, value, he⟩
  · rw [he]
    exact kept_setRegister hresult m d value _ _
  · have hreport : p ≠ .register flag := ne_of_writes (.report h (hn ▸ hreports)) hp
    have hflag : p.Kept m d ⟨.changed, m.setFlag on, d⟩ := kept_setRegister hreport m d _ _ m.pc
    rw [he]
    exact hflag.trans (kept_setRegister hresult (m.setFlag on) d value _ _)

theorem kept_draw (h : w.kind = 0xD) (hp : ¬ w.Writes dialect m p) (d : Devices)
    (x y : Register) (rows : Nat) :
    p.Kept m d ⟨.changed, (m.draw d.memory x y rows).next, d⟩ := by
  cases p with
  | register r =>
    have hr : r ≠ flag := fun he => hp (he ▸ .collision h)
    exact register_draw_of_ne hr m d.memory x y rows
  | screen => exact absurd (.drawn h) hp
  | _ => rfl

theorem byteAt_kept {a : Nat} {bytes : List UInt8} (m : Machine) (memory : Memory)
    (h : a < 0x1000 → ∀ k < bytes.length, a ≠ (m.index.toNat + k) % 65536) :
    (memory.writeAll m.index bytes).byteAt a = memory.byteAt a := by
  rcases Nat.lt_or_ge a Memory.size with hlt | hge
  · exact Memory.byteAt_writeAll_of_ne _ _ (h hlt)
  · rw [Memory.byteAt_of_size_le _ hge, Memory.byteAt_of_size_le _ hge]

/-- The index is passed in one dialect alone. -/
theorem kept_passIndex (m : Machine) (d : Devices) (u : Update) (last : Register)
    (h : dialect.incrementIndex = true → p ≠ .index) :
    p.Kept m d ⟨u, (m.passIndex dialect last).next, d⟩ := by
  unfold passIndex
  split
  · rename_i hdialect
    cases p with
    | index => exact absurd rfl (h hdialect)
    | _ => rfl
  · exact kept_of_pc p m d u _

theorem kept_ret (h : w.kind = 0x0) (hkk : w.kk = 0xEE) (hp : ¬ w.Writes dialect m p)
    (d : Devices) : p.Kept m d (m.execute dialect d .ret) := by
  simp only [execute]
  split
  · exact kept_of_pc p m d _ m.pc
  · split
    · cases p with
      | sp => exact absurd (.returned h hkk) hp
      | _ => rfl
    · exact kept_of_pc p m d _ m.pc

theorem kept_call (h : w.kind = 0x2) (hp : ¬ w.Writes dialect m p) (d : Devices)
    (target : Address) : p.Kept m d (m.execute dialect d (.call target)) := by
  by_cases hroom : m.sp.toNat < 16
  · rw [execute_call hroom]
    cases p with
    | sp => exact absurd (.called h) hp
    | slot k =>
      have hk : m.sp.toNat ≠ k.val := fun he => hp (.caller h he.symm)
      exact Vector.getElem_set_ne hroom k.isLt hk
    | _ => rfl
  · rw [Stalls.execute (.noRoom hroom)]
    exact kept_of_pc p m d _ m.pc

theorem kept_random {x : Register} (h : w.kind = 0xC) (hx : w.x = x)
    (hp : ¬ w.Writes dialect m p) (d : Devices) (mask : UInt8) :
    p.Kept m d (m.execute dialect d (.random x mask)) := by
  have hresult : p ≠ .register x := hx ▸ ne_of_writes (.result (.inr (.inr (.inr h)))) hp
  cases p with
  | random => exact absurd (.random h) hp
  | register r => exact kept_setRegister hresult m d _ .changed m.pc
  | _ => rfl

/-- The latch is written either way, the rest only when there is a press to collect. -/
theorem kept_waitForKey {x : Register} (h : w.kind = 0xF) (hkk : w.kk = 0x0A) (hx : w.x = x)
    (hp : ¬ w.Writes dialect m p) (d : Devices) :
    p.Kept m d (m.execute dialect d (.waitForKey x)) := by
  have hkey : p ≠ .register x := hx ▸ ne_of_writes (.reading h (.inr hkk)) hp
  cases hpending : d.keypad.pending with
  | none =>
    rw [execute_waitForKey_none hpending]
    cases p with
    | waiting => exact absurd (.wait h hkk) hp
    | _ => rfl
  | some key =>
    rw [execute_waitForKey_some hpending]
    cases p with
    | register r => exact kept_setRegister hkey m d key .changed m.pc
    | waiting => exact absurd (.wait h hkk) hp
    | pending => exact absurd (.collected h hkk) hp
    | _ => rfl

theorem kept_storeDecimal (h : w.kind = 0xF) (hkk : w.kk = 0x33) (hp : ¬ w.Writes dialect m p)
    (d : Devices) (x : Register) :
    p.Kept m d (m.execute dialect d (.storeDecimal x)) := by
  cases p with
  | byte a =>
    refine byteAt_kept m d.memory fun hsize k hk he => ?_
    subst he
    exact hp (.decimal h hkk (Nat.le_of_lt_succ hk) hsize)
  | baseline => exact Memory.baseline_writeAll _ _ _
  | _ => rfl

theorem kept_storeRegisters {last : Register} (h : w.kind = 0xF) (hkk : w.kk = 0x55)
    (hx : w.x = last) (hp : ¬ w.Writes dialect m p) (d : Devices) :
    p.Kept m d (m.execute dialect d (.storeRegisters last)) := by
  have hindex : dialect.incrementIndex = true → p ≠ .index :=
    fun hdialect => ne_of_writes (.indexPassed hdialect h (.inl hkk)) hp
  have hpass := kept_passIndex m d .changed last hindex
  cases p with
  | byte a =>
    refine byteAt_kept m d.memory fun hsize k hk he => ?_
    rw [length_take_registers] at hk
    subst he
    exact hp (.stored h hkk (hx ▸ Nat.le_of_lt_succ hk) hsize)
  | baseline => exact Memory.baseline_writeAll _ _ _
  | _ => exact hpass

theorem kept_loadRegisters {last : Register} (h : w.kind = 0xF) (hkk : w.kk = 0x65)
    (hx : w.x = last) (hp : ¬ w.Writes dialect m p) (d : Devices) :
    p.Kept m d (m.execute dialect d (.loadRegisters last)) := by
  have hindex : dialect.incrementIndex = true → p ≠ .index :=
    fun hdialect => ne_of_writes (.indexPassed hdialect h (.inr hkk)) hp
  have hload : p.Kept m d ⟨.changed, m.loadRegisters d.memory last, d⟩ := by
    cases p with
    | register r =>
      have hr : ¬ r ≤ last := fun hr => hp (.loaded h hkk (hx ▸ hr))
      exact (m.register_loadRegisters d.memory last r).trans (if_neg hr)
    | _ => simp only [Place.Kept, loadRegisters]
  exact hload.trans (kept_passIndex _ d .changed last hindex)

/-- By cases on the instruction: the places it writes are in the table for its words, and at the
others the states are the same by definition. -/
theorem kept_execute {i : Instruction} (hi : w.StandsFor i) (hp : ¬ w.Writes dialect m p)
    (d : Devices) : p.Kept m d (m.execute dialect d i) := by
  cases i with
  | clearScreen =>
    obtain ⟨hkind, hkk⟩ := hi
    cases p with
    | screen => exact absurd (.cleared hkind hkk) hp
    | _ => rfl
  | ret => exact kept_ret hi.1 hi.2 hp d
  | jump target =>
    simp only [execute]
    split <;> exact kept_of_pc p m d _ _
  | call target => exact kept_call hi.1 hp d target
  | skip condition =>
    simp only [execute, skipIf]
    split <;> exact kept_of_pc p m d _ _
  | setByte x byte =>
    obtain ⟨hkind, rfl, -⟩ := hi
    have hx : p ≠ .register w.x := ne_of_writes (.result (.inl hkind)) hp
    exact kept_setRegister hx m d byte _ _
  | addByte x byte =>
    obtain ⟨hkind, rfl, -⟩ := hi
    have hx : p ≠ .register w.x := ne_of_writes (.result (.inr (.inl hkind))) hp
    exact kept_setRegister hx m d _ _ _
  | arithmetic operation x y =>
    obtain ⟨hkind, hn, hx, -⟩ := hi
    exact kept_arithmetic hkind hn hx hp d
  | setIndex target =>
    cases p with
    | index => exact absurd (.indexSet hi.1) hp
    | _ => rfl
  | jumpFromV0 base => exact kept_of_pc p m d _ _
  | random x mask => exact kept_random hi.1 hi.2.1 hp d mask
  | draw x y rows =>
    obtain ⟨hkind, -⟩ := hi
    simp only [execute]
    split
    · exact kept_of_pc p m d _ m.pc
    · exact kept_draw hkind hp d x y rows.val
  | readDelay x =>
    obtain ⟨hkind, hkk, rfl⟩ := hi
    have hx : p ≠ .register w.x := ne_of_writes (.reading hkind (.inl hkk)) hp
    exact kept_setRegister hx m d _ _ _
  | waitForKey x => exact kept_waitForKey hi.1 hi.2.1 hi.2.2 hp d
  | setDelay x =>
    obtain ⟨hkind, hkk, -⟩ := hi
    cases p with
    | delay => exact absurd (.delay hkind hkk) hp
    | _ => rfl
  | setSound x =>
    obtain ⟨hkind, hkk, -⟩ := hi
    cases p with
    | sound => exact absurd (.sound hkind hkk) hp
    | _ => rfl
  | addToIndex x =>
    obtain ⟨hkind, hkk, -⟩ := hi
    cases p with
    | index => exact absurd (.indexMoved hkind (.inl hkk)) hp
    | _ => rfl
  | pointAtDigit x =>
    obtain ⟨hkind, hkk, -⟩ := hi
    cases p with
    | index => exact absurd (.indexMoved hkind (.inr hkk)) hp
    | _ => rfl
  | storeDecimal x => exact kept_storeDecimal hi.1 hi.2.1 hp d x
  | storeRegisters last => exact kept_storeRegisters hi.1 hi.2.1 hi.2.2 hp d
  | loadRegisters last => exact kept_loadRegisters hi.1 hi.2.1 hi.2.2 hp d

theorem skips_of_standsFor {condition : Condition} (h : w.StandsForSkip condition) :
    w.Skips := by
  cases condition with
  | byteIs x byte => exact .inl h.1
  | byteIsNot x byte => exact .inr (.inl h.1)
  | equal x y => exact .inr (.inr (.inl ⟨.inl h.1, h.2.1⟩))
  | different x y => exact .inr (.inr (.inl ⟨.inr h.1, h.2.1⟩))
  | keyHeld x => exact .inr (.inr (.inr ⟨h.1, .inl h.2.1⟩))
  | keyFree x => exact .inr (.inr (.inr ⟨h.1, .inr h.2.1⟩))

theorem pc_of_changed {i : Instruction} (hi : w.StandsFor i) (hgoes : ¬ w.Branches)
    (h : (m.execute dialect d i).update = .changed) :
    (m.execute dialect d i).machine.pc = m.pc + 2 ∨
      w.Skips ∧ (m.execute dialect d i).machine.pc = m.pc + 4 := by
  cases i with
  | ret => exact absurd (.inl hi) hgoes
  | jump target => exact absurd (.inr (.inl hi.1)) hgoes
  | call target => exact absurd (.inr (.inr (.inl hi.1))) hgoes
  | jumpFromV0 base => exact absurd (.inr (.inr (.inr hi.1))) hgoes
  | skip condition =>
    simp only [execute, skipIf]
    split
    · exact .inr ⟨skips_of_standsFor hi, UInt16.add_assoc m.pc 2 2⟩
    · exact .inl rfl
  | arithmetic operation x y =>
    exact .inl (congrArg (· + 2) (m.pc_arithmetic dialect operation x y))
  | draw x y rows =>
    by_cases hrows : rows = 0
    · rw [hrows, Stalls.execute .noRows] at h
      cases h
    · rw [execute_draw hrows]
      exact .inl rfl
  | waitForKey x =>
    cases hpending : d.keypad.pending with
    | none =>
      rw [execute_waitForKey_none hpending] at h
      cases h
    | some key =>
      rw [execute_waitForKey_some hpending]
      exact .inl rfl
  | storeRegisters last =>
    exact .inl (congrArg (· + 2) (m.frame_passIndex dialect last).1)
  | loadRegisters last =>
    exact .inl (congrArg (· + 2) (m.frame_loadRegisters dialect d.memory last).1)
  | _ => exact .inl rfl

theorem kept_executeWord (hp : ¬ w.Writes dialect m p) (d : Devices) :
    p.Kept m d (m.executeWord dialect d w) := by
  unfold executeWord
  cases hi : Instruction.decode? w with
  | none => exact kept_of_pc p m d _ m.pc
  | some i => exact kept_execute (Instruction.standsFor_of_decode? hi) hp d

theorem pc_of_changed_word (hgoes : ¬ w.Branches)
    (h : (m.executeWord dialect d w).update = .changed) :
    (m.executeWord dialect d w).machine.pc = m.pc + 2 ∨
      w.Skips ∧ (m.executeWord dialect d w).machine.pc = m.pc + 4 := by
  unfold executeWord at h ⊢
  cases hi : Instruction.decode? w with
  | none =>
    rw [hi] at h
    cases h
  | some i =>
    rw [hi] at h
    exact pc_of_changed (Instruction.standsFor_of_decode? hi) hgoes h

/-- A word writes the places that the table gives it, and where it gives none, everything is as
before. It goes on to the next instruction, unless it branches or skips. -/
theorem words_write_their_places (dialect : Dialect) (m : Machine) (d : Devices) (w : Word) :
    let e := m.executeWord dialect d w
    (∀ p : Place, ¬ w.Writes dialect m p → p.Kept m d e) ∧
      ((∀ p : Place, ¬ w.Writes dialect m p) →
        e.machine = { m with pc := e.machine.pc } ∧ e.devices = d) ∧
      (e.update = .changed → ¬ w.Branches →
        e.machine.pc = m.pc + 2 ∨ w.Skips ∧ e.machine.pc = m.pc + 4) := by
  intro e
  refine ⟨?_, ?_, ?_⟩
  · intro p hp
    exact kept_executeWord hp d
  · intro hnone
    apply Place.eq_of_kept
    intro p
    exact kept_executeWord (hnone p) d
  · intro hchanged hgoes
    exact pc_of_changed_word hgoes hchanged

/-- Four registers are stored where memory ends, the last two of them past it. The index, the bytes
before and the image for resets stay. -/
theorem storing_at_end_keeps_index :
    let d : Devices := ⟨.blank, .idle, .ofSeed 7⟩
    let m : Machine := { initial with index := 0xFFE, v := Vector.replicate 16 0xAA }
    let e := m.executeWord .modern d 0xF355
    e.update = .changed ∧ e.devices.memory.byteAt 0xFFF = 0xAA ∧ e.machine.index = 0xFFE ∧
      e.devices.memory.byteAt 0xFFD = d.memory.byteAt 0xFFD ∧
      e.devices.memory.baseline = d.memory.baseline ∧ e.machine.pc = 0x202 := by
  intro d m e
  obtain ⟨hkept, -, hpc⟩ := words_write_their_places .modern m d 0xF355
  have hchanged : e.update = .changed := rfl
  have hindex : ¬ Word.Writes 0xF355 .modern m .index := by
    intro h
    cases h with
    | indexSet hkind => exact absurd hkind (by decide)
    | indexMoved hkind hkk => exact absurd hkk (by decide)
    | indexPassed hdialect => exact absurd hdialect (by decide)
  have hbyte : ¬ Word.Writes 0xF355 .modern m (.byte 0xFFD) := by
    generalize ha : 0xFFD = a
    intro h
    cases h with
    | decimal hkind hkk => exact absurd hkk (by decide)
    | stored hkind hkk hk hsize =>
      have hindex : m.index.toNat = 0xFFE := rfl
      have hx : (Word.x 0xF355).val = 3 := rfl
      omega
  have hgoes : ¬ Word.Branches 0xF355 := by decide
  have hskips : ¬ Word.Skips 0xF355 := by decide
  refine ⟨hchanged, by decide +kernel, hkept .index hindex, hkept (.byte 0xFFD) hbyte,
    hkept .baseline nofun, ?_⟩
  exact (hpc hchanged hgoes).resolve_right fun h => hskips h.1

end Machine

end Chip8
