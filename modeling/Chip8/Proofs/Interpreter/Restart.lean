import Chip8.Interpreter.MemoryView
import Chip8.Proofs.Interpreter.Run
import Chip8.Proofs.Machine.Execute

namespace Chip8.Interpreter

/-- Two histories that stand for the same list. The slots behind it may differ. -/
def SameTimeline (g h : History Machine) : Prop :=
  ∃ t, g.StandsFor History.defaultCapacity t ∧ h.StandsFor History.defaultCapacity t

namespace SameTimeline

variable {g h : History Machine}

theorem perform (hs : SameTimeline g h) (op : History.Operation Machine) :
    (g.perform op).1 = (h.perform op).1 ∧ SameTimeline (g.perform op).2 (h.perform op).2 := by
  obtain ⟨t, hg, hh⟩ := hs
  obtain ⟨hga, hgt⟩ := hg.perform op
  obtain ⟨hha, hht⟩ := hh.perform op
  exact ⟨hga.trans hha.symm, _, hgt, hht⟩

theorem follow (hs : SameTimeline g h) (op : Option (History.Operation Machine)) :
    SameTimeline (g.follow op) (h.follow op) := by
  cases op with
  | none => exact hs
  | some op => exact (hs.perform op).2

theorem currentState (hs : SameTimeline g h) : g.currentState = h.currentState := by
  obtain ⟨t, hg, hh⟩ := hs
  exact Option.some.inj (hg.shows.current.symm.trans hh.shows.current)

theorem headState (hs : SameTimeline g h) : g.headState = h.headState := by
  obtain ⟨t, hg, hh⟩ := hs
  exact Option.some.inj (hg.shows.head.symm.trans hh.shows.head)

theorem behind (hs : SameTimeline g h) : g.behind = h.behind := by
  obtain ⟨t, hg, hh⟩ := hs
  exact hg.shows.behind.trans hh.shows.behind.symm

theorem depth (hs : SameTimeline g h) : g.depth = h.depth := by
  obtain ⟨t, hg, hh⟩ := hs
  exact hg.shows.depth.trans hh.shows.depth.symm

theorem commits (hs : SameTimeline g h) : g.commits = h.commits := by
  obtain ⟨t, hg, hh⟩ := hs
  exact hg.shows.commits.trans hh.shows.commits.symm

theorem isReplaying (hs : SameTimeline g h) : g.isReplaying = h.isReplaying := by
  obtain ⟨t, hg, hh⟩ := hs
  exact Bool.eq_iff_iff.mpr (hg.shows.replaying.trans hh.shows.replaying.symm)

end SameTimeline

/-- Two interpreters that differ at most in slots that no operation reads. -/
structure Alike (i j : Interpreter) : Prop where
  devices : i.devices = j.devices
  dialect : i.dialect = j.dialect
  paused : i.paused = j.paused
  stepped : i.stepped = j.stepped
  histories : SameTimeline i.history j.history

namespace Alike

variable {i j : Interpreter}

theorem machine (h : Alike i j) : i.machine = j.machine := h.histories.currentState

theorem execution (h : Alike i j) : i.execution = j.execution := by
  simp only [Interpreter.execution, h.machine, h.dialect, h.devices]

theorem stepOperation (h : Alike i j) : i.stepOperation = j.stepOperation := by
  simp only [Interpreter.stepOperation, h.histories.isReplaying, h.execution]

theorem stepDevices (h : Alike i j) : i.stepDevices = j.stepDevices := by
  simp only [Interpreter.stepDevices, h.histories.isReplaying, h.devices, h.execution]

theorem historyOperation (h : Alike i j) (op : Operation) :
    i.historyOperation op = j.historyOperation op := by
  cases op <;> simp only [Interpreter.historyOperation, h.paused, h.stepped, h.stepOperation]

theorem devicesAfter (h : Alike i j) (op : Operation) : i.devicesAfter op = j.devicesAfter op := by
  cases op <;> simp only [Interpreter.devicesAfter, h.paused, h.devices, h.stepDevices]

theorem answer (h : Alike i j) (op : Operation) : i.answer op = j.answer op := by
  cases op <;> simp only [Interpreter.answer, h.paused, h.histories.behind, h.histories.depth]

theorem perform (h : Alike i j) (op : Operation) :
    (i.perform op).1 = (j.perform op).1 ∧ Alike (i.perform op).2 (j.perform op).2 := by
  rw [perform_eq, perform_eq, h.historyOperation]
  refine ⟨h.answer op, h.devicesAfter op, h.dialect, ?_, ?_, h.histories.follow _⟩
  · cases op <;> simp only [pausedAfter, h.paused]
  · cases op <;> simp only [steppedAfter, h.paused, h.stepped]

theorem performAll (h : Alike i j) (ops : List Operation) :
    (i.performAll ops).1 = (j.performAll ops).1 ∧ Alike (i.after ops) (j.after ops) := by
  simp only [Interpreter.after, performAll_eq_runAll]
  exact runAll_related (R := Alike) (fun _ _ op h => h.perform op) h ops

end Alike

/-- All that there is to see of an interpreter. -/
structure Observation where
  shown : Machine
  newest : Machine
  commits : Nat
  behind : Nat
  depth : Nat
  memory : Vector UInt8 4096
  paused : Bool
  waiting : Bool
  deriving DecidableEq

def observe (i : Interpreter) : Observation where
  shown := i.machine
  newest := i.history.headState
  commits := i.history.commits
  behind := i.history.behind
  depth := i.history.depth
  memory := i.devices.memory.bytes
  paused := i.paused
  waiting := i.devices.keypad.waiting

theorem Alike.observe {i j : Interpreter} (h : Alike i j) : i.observe = j.observe := by
  simp only [Interpreter.observe, h.machine, h.histories.headState, h.histories.commits,
    h.histories.behind, h.histories.depth, h.devices, h.paused]

theorem Alike.memoryView {i j : Interpreter} (h : Alike i j) (radius : UInt16) :
    i.memoryView radius = j.memoryView radius := by
  simp only [Interpreter.memoryView, h.machine, h.devices]

/-- The second interpreter has the same program to return to. -/
structure SameLoad (i j : Interpreter) : Prop where
  dialect : j.dialect = i.dialect
  baseline : j.devices.memory.baseline = i.devices.memory.baseline

namespace SameLoad

/-- Only a load that is not refused gives memory another image. -/
theorem perform (i : Interpreter) {op : Operation}
    (hop : ∀ rom, op = .load rom → ¬ rom.length ≤ Memory.programLimit) :
    SameLoad i (i.perform op).2 := by
  have hstep : i.stepDevices.memory.baseline = i.devices.memory.baseline := by
    unfold stepDevices
    split
    · rfl
    · exact Machine.baseline_executeWord _ _ _ _
  rw [perform_eq]
  refine ⟨rfl, ?_⟩
  simp only [devicesAfter]
  cases op with
  | load rom => simp only [hop rom rfl, ↓reduceDIte]
  | cycle => cases i.paused <;> simp [hstep]
  | advance => cases i.paused <;> simp [hstep]
  | _ => rfl

theorem trans {i j k : Interpreter} (h : SameLoad i j) (h' : SameLoad j k) : SameLoad i k :=
  ⟨h'.dialect.trans h.dialect, h'.baseline.trans h.baseline⟩

theorem after (i : Interpreter) {ops : List Operation}
    (hops : ∀ rom, .load rom ∈ ops → ¬ rom.length ≤ Memory.programLimit) :
    SameLoad i (i.after ops) := by
  rw [Interpreter.after, performAll_eq_runAll]
  refine runAll_invariant ?_ ⟨rfl, rfl⟩
  intro j op hop hj
  refine hj.trans (perform j ?_)
  rintro rom rfl
  exact hops rom hop

end SameLoad

/-- A new interpreter into which a program was just loaded, with this pause flag, these held keys
and these random numbers. -/
def freshlyLoaded (dialect : Dialect) (rom : List UInt8) (paused : Bool) (held : Vector Bool 16)
    (random : Random.Generator) : Except LoadError Interpreter :=
  ((new dialect random).load rom).map fun i =>
    { i with paused, devices := { i.devices with keypad := { i.devices.keypad with held } } }

theorem freshlyLoaded_fits (dialect : Dialect) {rom : List UInt8} (paused : Bool)
    (held : Vector Bool 16) (random : Random.Generator) (h : rom.length ≤ Memory.programLimit) :
    freshlyLoaded dialect rom paused held random = .ok
      { devices := ⟨⟨Memory.image rom h, Memory.image rom h⟩, ⟨held, false, none⟩, random⟩
        history := (History.new .initial).reset .initial
        dialect, paused, stepped := false } := by
  rw [freshlyLoaded, load_fits _ h]
  rfl

/-- A reset brings an interpreter that has a program to return to where a fresh one starts. -/
theorem alike_reset {i : Interpreter} (hi : i.Reachable) {rom : List UInt8}
    (h : rom.length ≤ Memory.programLimit)
    (hbaseline : i.devices.memory.baseline = Memory.image rom h) :
    ∃ fresh,
      freshlyLoaded i.dialect rom i.paused i.devices.keypad.held i.devices.random = .ok fresh ∧
        Alike i.reset fresh := by
  obtain ⟨-, hreset⟩ := hi.standsFor.perform (.reset .initial)
  obtain ⟨-, hnew⟩ := (History.StandsFor.new Machine.initial).perform (.reset .initial)
  have hmemory : i.devices.memory.reset = ⟨Memory.image rom h, Memory.image rom h⟩ := by
    rw [Memory.reset, hbaseline]
  refine ⟨_, freshlyLoaded_fits _ _ _ _ h, ?_, rfl, rfl, rfl, _, hreset, hnew⟩
  rw [reset, hmemory]
  rfl

/-- Whatever was done since a program was loaded, a reset leaves nothing of it to be seen, then or
later, but the pause flag, the held keys and the place in the random numbers. -/
theorem reset_restores_load (i : Interpreter) (rom : List UInt8) (ops : List Operation)
    (hi : i.Reachable) (hfits : rom.length ≤ Memory.programLimit)
    (hops : ∀ other, .load other ∈ ops → ¬ other.length ≤ Memory.programLimit) :
    ∃ loaded fresh, i.load rom = .ok loaded ∧
      freshlyLoaded i.dialect rom (loaded.after ops).paused
        (loaded.after ops).devices.keypad.held (loaded.after ops).devices.random = .ok fresh ∧
      (loaded.after ops).reset.devices = fresh.devices ∧
      (loaded.after ops).reset.stepped = fresh.stepped ∧
      ∀ later,
        ((loaded.after ops).reset.performAll later).1 = (fresh.performAll later).1 ∧
        ((loaded.after ops).reset.after later).observe = (fresh.after later).observe ∧
        ∀ radius, ((loaded.after ops).reset.after later).memoryView radius =
          (fresh.after later).memoryView radius := by
  obtain ⟨loaded, hload, hdialect, hbaseline⟩ : ∃ loaded, i.load rom = .ok loaded ∧
      loaded.dialect = i.dialect ∧ loaded.devices.memory.baseline = Memory.image rom hfits :=
    ⟨_, load_fits i hfits, rfl, rfl⟩
  have hreachable : (loaded.after ops).Reachable := by
    rw [← after_load hload]
    exact (hi.after [.load rom]).after ops
  have hsame := SameLoad.after loaded hops
  obtain ⟨fresh, hfresh, halike⟩ :=
    alike_reset hreachable hfits (hsame.baseline.trans hbaseline)
  rw [hsame.dialect, hdialect] at hfresh
  refine ⟨loaded, fresh, hload, hfresh, halike.devices, halike.stepped, ?_⟩
  intro later
  obtain ⟨hreplies, hlater⟩ := halike.performAll later
  exact ⟨hreplies, hlater.observe, hlater.memoryView⟩

/-- Stopped on a wait for a key, with a byte written, a press waiting and a step taken. -/
theorem reset_restores_keypad_wait :
    let i := new .modern (.ofSeed 7)
    let rom : List UInt8 := [0x60, 0x05, 0xA3, 0x00, 0xF0, 0x55, 0xF1, 0x0A]
    let ops := [.cycle, .cycle, .load (List.replicate 3585 0), .cycle, .hold 4 true,
      .togglePause, .advance, .press 3]
    i.Reachable ∧ rom.length ≤ Memory.programLimit ∧
      (∀ other, .load other ∈ ops → ¬ other.length ≤ Memory.programLimit) ∧
      ∃ loaded fresh, i.load rom = .ok loaded ∧
        freshlyLoaded i.dialect rom (loaded.after ops).paused
          (loaded.after ops).devices.keypad.held (loaded.after ops).devices.random = .ok fresh ∧
        (loaded.after ops).stepped = true ∧ (loaded.after ops).devices.keypad.pending = some 3 ∧
        (loaded.after ops).devices.memory.read 0x300 = 5 ∧ (loaded.after ops).history.depth = 3 ∧
        ((loaded.after ops).reset.after [.advance, .tick, .advance, .back]).observe =
          (fresh.after [.advance, .tick, .advance, .back]).observe := by
  intro i rom ops
  have hi : i.Reachable := ⟨_, _, [], rfl⟩
  have hfits : rom.length ≤ Memory.programLimit := by decide
  have hops : ∀ other, .load other ∈ ops → ¬ other.length ≤ Memory.programLimit := by
    intro other hmem
    simp only [ops, List.mem_cons, reduceCtorEq, Operation.load.injEq, List.not_mem_nil, or_false,
      false_or] at hmem
    subst hmem
    decide +kernel
  obtain ⟨loaded, fresh, hload, hfresh, -, -, hlater⟩ :=
    reset_restores_load i rom ops hi hfits hops
  obtain ⟨hstepped, hpending, hwritten, hdepth⟩ : (loaded.after ops).stepped = true ∧
      (loaded.after ops).devices.keypad.pending = some 3 ∧
      (loaded.after ops).devices.memory.read 0x300 = 5 ∧
      (loaded.after ops).history.depth = 3 := by
    rw [← after_load hload]
    decide +kernel
  obtain ⟨-, hobserved, -⟩ := hlater [.advance, .tick, .advance, .back]
  exact ⟨hi, hfits, hops, loaded, fresh, hload, hfresh, hstepped, hpending, hwritten, hdepth,
    hobserved⟩

end Chip8.Interpreter
