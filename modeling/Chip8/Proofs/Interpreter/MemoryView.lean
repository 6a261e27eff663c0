import Chip8.Interpreter.MemoryView
import Chip8.Proofs.Interpreter.Load
import Chip8.Proofs.Listing

namespace Chip8

namespace Memory

theorem readWord_eq_byteAt (m : Memory) {a : UInt16} (h : a.toNat < size) :
    m.readWord a = Word.ofBytes (m.byteAt a.toNat) (m.byteAt (a.toNat + 1)) := by
  have hsize : a.toNat < 4096 := h
  have hnext : (a + 1).toNat = a.toNat + 1 := by
    rw [UInt16.toNat_add]
    exact Nat.mod_eq_of_lt (by simp only [UInt16.reduceToNat]; omega)
  rw [readWord, if_pos h, read_eq_byteAt, read_eq_byteAt, hnext]

/-- The bytes of a program that was just loaded. It has zeros after it, in memory and past its
end. -/
theorem byteAt_loaded {rom : List UInt8} (fits : rom.length ≤ programLimit)
    (baseline : Vector UInt8 4096) (k : Nat) :
    (⟨image rom fits, baseline⟩ : Memory).byteAt (0x200 + k) = rom.getD k 0 := by
  have hlimit : rom.length ≤ 3584 := fits
  rcases Nat.lt_or_ge (0x200 + k) 4096 with hlt | hge
  · have hsprites : ¬ 0x200 + k < 0x50 := by omega
    have hgap : ¬ 0x200 + k < 0x200 := by omega
    rw [byteAt, Vector.getElem?_eq_getElem hlt, getElem_image, laidOut, if_neg hsprites,
      if_neg hgap, Nat.add_sub_cancel_left]
    rfl
  · have hpast : rom.length ≤ k := by omega
    rw [byteAt_of_size_le _ hge, List.getD_eq_getElem?_getD, List.getElem?_eq_none hpast]
    rfl

theorem readWord_loaded {rom : List UInt8} (fits : rom.length ≤ programLimit)
    (baseline : Vector UInt8 4096) {a : UInt16} {n : Nat} (ha : a.toNat = 0x200 + 2 * n)
    (hsize : a.toNat < size) :
    (⟨image rom fits, baseline⟩ : Memory).readWord a = Listing.wordAt rom n := by
  rw [readWord_eq_byteAt _ hsize, ha, Nat.add_assoc, byteAt_loaded, byteAt_loaded]
  rfl

end Memory

/-- A line of the view is a line of a listing behind a marker and a blank. -/
theorem MemoryLine.toList_text (l : MemoryLine) :
    l.text.toList = (if l.isCurrent then '>' else ' ') :: ' ' ::
      (Listing.line l.address.toNat l.word).toList := by
  have hmarker : (if l.isCurrent then ">" else " ").toList =
      [if l.isCurrent then '>' else ' '] := by
    split <;> decide
  simp [text, Listing.line, Word.dump_eq_text, hmarker]

theorem MemoryLine.drop_text (l : MemoryLine) :
    String.ofList (l.text.toList.drop 2) = Listing.line l.address.toNat l.word := by
  rw [l.toList_text]
  exact String.ofList_toList

namespace Interpreter

/-- The interpreter after a word was executed at the state on show. The state it leads to is
recorded, if it was carried out. -/
def executing (i : Interpreter) (w : Word) : Interpreter :=
  let e := i.machine.executeWord i.dialect i.devices w
  { i with devices := e.devices, history := i.history.follow (recordOf e) }

theorem mem_viewAddresses {pc radius n : Nat} :
    n ∈ viewAddresses pc radius ↔
      viewStart pc radius ≤ n ∧ n ≤ viewEnd pc radius ∧ (n - viewStart pc radius) % 2 = 0 := by
  simp only [viewAddresses, List.mem_range']
  constructor
  · rintro ⟨k, hk, rfl⟩
    omega
  · rintro ⟨hstart, hend, hparity⟩
    exact ⟨(n - viewStart pc radius) / 2, by omega, by omega⟩

theorem le_of_mem_viewAddresses {pc radius n : Nat} (h : n ∈ viewAddresses pc radius) :
    n ≤ 0xFFE :=
  Nat.le_trans (mem_viewAddresses.mp h).2.1 (Nat.min_le_right ..)

theorem toNat_address {n : Nat} (h : n ≤ 0xFFE) : (UInt16.ofNat n).toNat = n := by
  apply UInt16.toNat_ofNat_of_lt'
  exact Nat.lt_of_le_of_lt h (by decide)

theorem mem_memoryView {i : Interpreter} {radius : UInt16} {l : MemoryLine} :
    l ∈ i.memoryView radius ↔
      l.address.toNat ∈ viewAddresses i.machine.pc.toNat radius.toNat ∧
        l.word = i.devices.memory.readWord l.address ∧
        l.isCurrent = (l.address == i.machine.pc) := by
  simp only [memoryView, List.mem_map]
  constructor
  · rintro ⟨n, hn, rfl⟩
    have haddress := toNat_address (le_of_mem_viewAddresses hn)
    exact ⟨haddress.symm ▸ hn, rfl, rfl⟩
  · rintro ⟨hn, hword, hcurrent⟩
    refine ⟨l.address.toNat, hn, ?_⟩
    rw [UInt16.ofNat_toNat, ← hword, ← hcurrent]

/-- A line holds what a step executes at its address. -/
theorem step_eq_executing {i j : Interpreter} {radius : UInt16} {l : MemoryLine}
    (hl : l ∈ i.memoryView radius) (hmemory : j.devices.memory = i.devices.memory)
    (hlive : j.history.isReplaying = false) (hpc : j.machine.pc = l.address) :
    j.step = j.executing l.word := by
  obtain ⟨-, hword, -⟩ := mem_memoryView.mp hl
  rw [hword, ← hmemory, ← hpc]
  exact step_live hlive

theorem exists_line {i : Interpreter} {radius a : UInt16}
    (h : a.toNat ∈ viewAddresses i.machine.pc.toNat radius.toNat) :
    ∃ l ∈ i.memoryView radius, l.address = a :=
  ⟨⟨a, i.devices.memory.readWord a, a == i.machine.pc⟩, mem_memoryView.mpr ⟨h, rfl, rfl⟩, rfl⟩

theorem pc_load (i : Interpreter) {rom : List UInt8} (h : rom.length ≤ Memory.programLimit) :
    (i.perform (.load rom)).2.machine.pc = 0x200 := by
  have hmachine : (i.perform (.load rom)).2.machine = .initial := by
    simp only [perform, load_fits i h, machine, History.currentState, History.reset]
    exact Array.getElem_set_self _
  rw [hmachine]
  rfl

/-- Around the start of a program the view has even addresses only. -/
theorem mem_viewAddresses_start {radius n : Nat} :
    n ∈ viewAddresses 0x200 radius ↔
      0x200 ≤ n + 2 * radius ∧ n ≤ 0x200 + 2 * radius ∧ n ≤ 0xFFE ∧ n % 2 = 0 := by
  rw [mem_viewAddresses]
  simp only [viewStart, viewEnd, Memory.size]
  omega

/-- A line that stands on a program just loaded holds one of the program's words. -/
theorem line_on_program {i : Interpreter} {rom : List UInt8}
    (h : rom.length ≤ Memory.programLimit) {radius : UInt16} {l : MemoryLine}
    (hl : l ∈ (i.perform (.load rom)).2.memoryView radius) (hstart : 0x200 ≤ l.address.toNat)
    (hend : l.address.toNat < 0x200 + rom.length) :
    ∃ n, 2 * n < rom.length ∧ l.address.toNat = 0x200 + 2 * n ∧ l.word = Listing.wordAt rom n := by
  rw [mem_memoryView, pc_load i h, memory_load h] at hl
  obtain ⟨haddress, hword, -⟩ := hl
  obtain ⟨-, -, hlast, hparity⟩ := mem_viewAddresses_start.mp haddress
  obtain ⟨n, hn⟩ : ∃ n, l.address.toNat = 0x200 + 2 * n :=
    ⟨(l.address.toNat - 0x200) / 2, by omega⟩
  have hsize : l.address.toNat < Memory.size := Nat.lt_of_le_of_lt hlast (by decide)
  exact ⟨n, by omega, hn, hword.trans (Memory.readWord_loaded h _ hn hsize)⟩

/-- Right after a program is loaded, each line of the view whose address is one of the program's is,
behind its marker, the line that the listing has for the address, and its word is what a step would
execute there. The view has all the words of the program that are within its radius. -/
theorem view_shows_listing (i : Interpreter) (name : String) (rom : List UInt8) (radius : UInt16)
    (h : rom.length ≤ 3584) :
    ∃ loaded, i.perform (.load rom) = (.done, loaded) ∧
      (∀ l ∈ loaded.memoryView radius,
        0x200 ≤ l.address.toNat → l.address.toNat < 0x200 + rom.length →
          ∃ n, l.address.toNat = 0x200 + 2 * n ∧
            (Listing.lines name rom)[n + 1]? = some (String.ofList (l.text.toList.drop 2)) ∧
            l.word = Listing.wordAt rom n ∧
            (rom.length = 2 * n + 1 → l.word = Word.ofBytes (rom.getD (2 * n) 0) 0) ∧
            ∀ j : Interpreter, j.devices.memory = loaded.devices.memory →
              j.history.isReplaying = false → j.machine.pc = l.address →
              j.step = j.executing l.word) ∧
      ∀ n ≤ radius.toNat, 2 * n < rom.length →
        ∃ l ∈ loaded.memoryView radius, l.address.toNat = 0x200 + 2 * n := by
  have hfits : rom.length ≤ Memory.programLimit := h
  refine ⟨(i.perform (.load rom)).2, by simp only [perform, load_fits i hfits], ?_, ?_⟩
  · intro l hl hstart hend
    obtain ⟨n, hlength, haddress, hword⟩ := line_on_program hfits hl hstart hend
    refine ⟨n, haddress, ?_, hword, ?_, fun j => step_eq_executing hl⟩
    · rw [l.drop_text, haddress, hword]
      exact Listing.getElem?_lines name hlength
    · intro hodd
      rw [hword, Listing.wordAt_odd hodd]
  · intro n hn hlength
    have haddress : (UInt16.ofNat (0x200 + 2 * n)).toNat = 0x200 + 2 * n :=
      toNat_address (by omega)
    have hview : (UInt16.ofNat (0x200 + 2 * n)).toNat ∈
        viewAddresses (i.perform (.load rom)).2.machine.pc.toNat radius.toNat := by
      rw [haddress, pc_load i hfits]
      exact mem_viewAddresses_start.mpr ⟨by omega, by omega, by omega, by omega⟩
    obtain ⟨l, hl, hat⟩ := exists_line hview
    exact ⟨l, hl, hat ▸ haddress⟩

/-- A program of odd length that ends where memory ends, in a view that reaches all of memory. -/
theorem odd_program_up_to_end_of_memory :
    let i := (new .modern (.ofSeed 7)).after [.load [0x70, 0x01, 0x12, 0x00], .cycle, .togglePause]
    let rom : List UInt8 := List.replicate 3583 0x22
    rom.length ≤ 3584 ∧ ∃ loaded, i.perform (.load rom) = (.done, loaded) ∧
      ∃ l ∈ loaded.memoryView 0xFFFF, l.address.toNat = 0xFFE ∧ l.word = 0x2200 ∧
        (Listing.lines "full.ch8" rom)[1792]? = some (String.ofList (l.text.toList.drop 2)) := by
  intro i rom
  have hlength : rom.length = 3583 := List.length_replicate
  have hfits : rom.length ≤ 3584 := by omega
  obtain ⟨loaded, hload, hlines, hall⟩ := view_shows_listing i "full.ch8" rom 0xFFFF hfits
  obtain ⟨l, hl, haddress⟩ := hall 1791 (by decide) (by omega)
  obtain ⟨n, hn, hline, -, hodd, -⟩ := hlines l hl (by omega) (by omega)
  obtain rfl : n = 1791 := by omega
  have hlast : rom.getD (2 * 1791) 0 = 0x22 := by
    rw [List.getD_eq_getElem?_getD, List.getElem?_replicate]
    rfl
  refine ⟨hfits, loaded, hload, l, hl, haddress, ?_, hline⟩
  rw [hodd hlength, hlast]
  rfl

/-- The line of the word that a step would execute at the state on show. -/
def currentLine (i : Interpreter) : MemoryLine :=
  ⟨i.machine.pc, i.devices.memory.readWord i.machine.pc, true⟩

theorem addresses_memoryView (i : Interpreter) (radius : UInt16) :
    (i.memoryView radius).map (fun l => l.address.toNat) =
      viewAddresses i.machine.pc.toNat radius.toNat := by
  rw [memoryView, List.map_map]
  conv_rhs => rw [← List.map_id (viewAddresses _ _)]
  apply List.map_congr_left
  intro n hn
  exact toNat_address (le_of_mem_viewAddresses hn)

theorem ascending_viewAddresses (pc radius : Nat) :
    (viewAddresses pc radius).Pairwise (· < ·) :=
  List.pairwise_lt_range' 2 (by decide)

/-- As no address comes twice, one line is marked at most. -/
theorem filter_isCurrent_memoryView (i : Interpreter) (radius : UInt16) :
    (i.memoryView radius).filter (·.isCurrent) =
      if i.machine.pc.toNat ∈ viewAddresses i.machine.pc.toNat radius.toNat then [i.currentLine]
      else [] := by
  have hcurrent : ∀ n ∈ viewAddresses i.machine.pc.toNat radius.toNat,
      (UInt16.ofNat n == i.machine.pc) = (n == i.machine.pc.toNat) := by
    intro n hn
    rw [Bool.eq_iff_iff, beq_iff_eq, beq_iff_eq, ← UInt16.toNat_inj,
      toNat_address (le_of_mem_viewAddresses hn)]
  have hnodup := (ascending_viewAddresses i.machine.pc.toNat radius.toNat).imp Nat.ne_of_lt
  rw [memoryView, List.filter_map]
  simp only [Function.comp_def]
  rw [List.filter_congr hcurrent, List.filter_beq, List.Nodup.count hnodup, List.map_replicate]
  split
  · simp only [List.replicate_one, UInt16.ofNat_toNat, beq_self_eq_true, currentLine]
  · rfl

/-- The view comes by the program counter: it does not begin at the start of memory with addresses
of the other parity, and memory does not end before. -/
def Reaches (pc radius : Nat) : Prop := pc ≤ 0xFFE ∧ (pc % 2 = 0 ∨ 2 * radius ≤ pc)

instance (pc radius : Nat) : Decidable (Reaches pc radius) := inferInstanceAs (Decidable (_ ∧ _))

theorem pc_mem_viewAddresses {pc radius : Nat} :
    pc ∈ viewAddresses pc radius ↔ Reaches pc radius := by
  rw [mem_viewAddresses, Reaches]
  simp only [viewStart, viewEnd, Memory.size]
  omega

/-- The addresses of a view ascend. Where it reaches the program counter exactly one line is
marked, that of the word which a step executes there; otherwise none is. So it misses a counter
inside memory only at the last byte, and at an odd address that is nearer to the start of memory
than the view is wide. -/
theorem view_marks_counter_it_reaches (i : Interpreter) (radius : UInt16) :
    let view := i.memoryView radius
    (view.map fun l => l.address.toNat).Pairwise (· < ·) ∧
      view.filter (·.isCurrent) =
        (if Reaches i.machine.pc.toNat radius.toNat then [i.currentLine] else []) ∧
      i.currentLine.address = i.machine.pc ∧
      ∀ j : Interpreter, j.devices.memory = i.devices.memory → j.history.isReplaying = false →
        j.machine.pc = i.machine.pc → j.step = j.executing i.currentLine.word := by
  refine ⟨?_, ?_, rfl, ?_⟩
  · rw [addresses_memoryView]
    exact ascending_viewAddresses _ _
  · rw [filter_isCurrent_memoryView]
    exact if_congr pc_mem_viewAddresses rfl rfl
  · intro j hmemory hlive hpc
    have hword : i.currentLine.word = j.devices.memory.readWord j.machine.pc := by
      rw [hmemory, hpc, currentLine]
    rw [hword]
    exact step_live hlive

/-- An odd counter, in the widest view that still reaches it. -/
theorem view_marks_odd_counter :
    let i := (new .modern (.ofSeed 7)).after [.load [0x12, 0x03, 0x00, 0x60, 0x05], .cycle]
    i.machine.pc = 0x203 ∧ i.history.isReplaying = false ∧
      (i.memoryView 0x101).filter (·.isCurrent) = [⟨0x203, 0x6005, true⟩] ∧
      i.step = i.executing 0x6005 := by
  intro i
  have hpc : i.machine.pc = 0x203 := by decide +kernel
  have hlive : i.history.isReplaying = false := by decide +kernel
  have hline : i.currentLine = ⟨0x203, 0x6005, true⟩ := by decide +kernel
  have hreaches : Reaches i.machine.pc.toNat 0x101 := by
    rw [hpc]
    decide
  obtain ⟨-, hmarked, -, hstep⟩ := view_marks_counter_it_reaches i 0x101
  have hexecuting := hstep i rfl hlive rfl
  rw [hline] at hexecuting
  exact ⟨hpc, hlive, hmarked.trans ((if_pos hreaches).trans (congrArg (fun l => [l]) hline)),
    hexecuting⟩

/-- The view begins at address 0, so it passes over the counter at address 1. -/
theorem odd_counter_near_start_is_missed :
    let i := (new .modern (.ofSeed 0)).after [.load [0x10, 0x01], .cycle]
    i.Reachable ∧ i.machine.pc = 1 ∧ i.machine.pc.toNat < 0x1000 ∧
      (i.memoryView 1).map (·.address) = [0, 2] ∧
      (i.memoryView 1).filter (·.isCurrent) = [] := by
  intro i
  have hview : i.machine.pc = 1 ∧ i.machine.pc.toNat < 0x1000 ∧
      (i.memoryView 1).map (·.address) = [0, 2] ∧
      (i.memoryView 1).filter (·.isCurrent) = [] := by
    decide +kernel
  exact ⟨⟨_, _, _, rfl⟩, hview⟩

end Interpreter

end Chip8
