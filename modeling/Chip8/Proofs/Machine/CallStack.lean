import Chip8.Proofs.Machine.Bounds
import Chip8.Proofs.Run

namespace Chip8

/-- A word to execute, with what it may use. -/
structure Turn where
  dialect : Dialect
  devices : Devices
  word : Word

namespace Machine

/-- The answer to a turn is whether the word was carried out, and what it made of the devices. -/
def turn (m : Machine) (t : Turn) : (Update × Devices) × Machine :=
  let e := m.executeWord t.dialect t.devices t.word
  ((e.update, e.devices), e.machine)

def withStack (m : Machine) (sp : UInt8) (stack : Vector UInt16 16) : Machine :=
  { m with sp, stack }

end Machine

/-- A machine whose open calls are a list, the oldest first. Its core has a call stack too, which
stays empty. -/
structure ListMachine where
  core : Machine
  calls : List UInt16

namespace ListMachine

def initial : ListMachine := ⟨.initial, []⟩

/-- What has nothing to do with calls is left to the core. -/
def onCore (dialect : Dialect) (r : ListMachine) (d : Devices) (i : Instruction) :
    (Update × Devices) × ListMachine :=
  let e := r.core.execute dialect d i
  ((e.update, e.devices), ⟨e.machine, r.calls⟩)

def execute (dialect : Dialect) (r : ListMachine) (d : Devices) :
    Instruction → (Update × Devices) × ListMachine
  | .ret =>
    match r.calls.getLast? with
    | none => ((.unchanged, d), r)
    | some caller => ((.changed, d), ⟨{ r.core with pc := caller + 2 }, r.calls.dropLast⟩)
  | .call target =>
    if r.calls.length = Machine.stackDepth then ((.unchanged, d), r)
    else ((.changed, d), ⟨{ r.core with pc := target.toUInt16 }, r.calls ++ [r.core.pc]⟩)
  | i => r.onCore dialect d i

def turn (r : ListMachine) (t : Turn) : (Update × Devices) × ListMachine :=
  match Instruction.decode? t.word with
  | some i => r.execute t.dialect t.devices i
  | none => ((.unchanged, t.devices), r)

theorem execute_core {i : Instruction} (hret : i ≠ .ret) (hcall : ∀ target, i ≠ .call target)
    (dialect : Dialect) (r : ListMachine) (d : Devices) :
    r.execute dialect d i = r.onCore dialect d i := by
  cases i with
  | ret => exact absurd rfl hret
  | call target => exact absurd rfl (hcall target)
  | _ => rfl

end ListMachine

namespace Machine

/-- Apart from calls and returns, no instruction reads the call stack or changes it. -/
theorem execute_withStack {i : Instruction} (hret : i ≠ .ret) (hcall : ∀ target, i ≠ .call target)
    (dialect : Dialect) (m : Machine) (d : Devices) (sp : UInt8) (stack : Vector UInt16 16) :
    (m.withStack sp stack).execute dialect d i =
      { m.execute dialect d i with
        machine := (m.execute dialect d i).machine.withStack sp stack } := by
  cases i with
  | ret => exact absurd rfl hret
  | call target => exact absurd rfl (hcall target)
  | jump target =>
    by_cases hpc : m.pc = target.toUInt16
    · simp [execute, withStack, hpc]
    · simp [execute, withStack, hpc]
  | skip condition =>
    have hholds : condition.holds (m.withStack sp stack) d.keypad = condition.holds m d.keypad := by
      cases condition <;> rfl
    simp only [execute, hholds, skipIf]
    split <;> rfl
  | arithmetic operation x y =>
    have hx : (m.withStack sp stack).register x = m.register x := rfl
    have hy : (m.withStack sp stack).register y = m.register y := rfl
    simp only [execute, arithmetic, hx, hy]
    split <;> rfl
  | draw x y rows =>
    simp only [execute]
    split <;> rfl
  | waitForKey x =>
    simp only [execute]
    split <;> rfl
  | storeRegisters last =>
    simp only [execute, passIndex]
    split <;> rfl
  | loadRegisters last =>
    simp only [execute, passIndex, loadRegisters, withStack, next]
    split <;> rfl
  | _ => rfl

theorem sp_le_executeWord {m : Machine} (h : m.sp.toNat ≤ stackDepth) (dialect : Dialect)
    (d : Devices) (w : Word) : (m.executeWord dialect d w).machine.sp.toNat ≤ stackDepth := by
  unfold executeWord
  cases Instruction.decode? w with
  | none => exact h
  | some i => exact sp_le_execute h dialect d i

/-- The list machine that a machine stands for. -/
def listed (m : Machine) : ListMachine := ⟨m.withStack 0 (Vector.replicate 16 0), m.callers⟩

theorem callers_call {m : Machine} (h : m.sp.toNat < 16) (target : Address) :
    callers { m with
      stack := m.stack.set m.sp.toNat m.pc, sp := m.sp + 1, pc := target.toUInt16 } =
      m.callers ++ [m.pc] := by
  have hsp : (m.sp + 1).toNat = m.sp.toNat + 1 := by
    rw [UInt8.toNat_add]
    exact Nat.mod_eq_of_lt (by simp; omega)
  have hslot : m.sp.toNat < m.stack.toList.length := by simpa using h
  simp only [callers, hsp, Vector.toList_set]
  rw [List.take_add_one, List.take_set_of_le (Nat.le_refl _), List.getElem?_set_self hslot]
  rfl

theorem callers_ret {m : Machine} (h : m.sp.toNat ≤ stackDepth) (hsp : m.sp ≠ 0) (pc : UInt16) :
    callers { m with sp := m.sp - 1, pc } = m.callers.dropLast := by
  rw [List.dropLast_eq_take, length_callers_of_le h]
  simp only [callers, toNat_pred hsp, List.take_take, Nat.min_eq_left (Nat.sub_le _ _)]

/-- A machine does what the list machine does that it stands for. -/
theorem listed_execute {m : Machine} (h : m.sp.toNat ≤ stackDepth) (dialect : Dialect) (d : Devices)
    (i : Instruction) :
    m.listed.execute dialect d i =
      (((m.execute dialect d i).update, (m.execute dialect d i).devices),
        (m.execute dialect d i).machine.listed) := by
  by_cases hret : i = .ret
  · subst hret
    by_cases hsp : m.sp = 0
    · have hnone : m.listed.calls.getLast? = none := InBounds.no_caller hsp
      have hstalls : m.execute dialect d .ret = ⟨.unchanged, m, d⟩ :=
        Stalls.execute (.noCaller (.inl hsp)) dialect d
      simp only [hstalls, ListMachine.execute, hnone]
    · obtain ⟨caller, -, hslot, hlast⟩ := caller_of_le h hsp
      have hleft := callers_ret h hsp (caller + 2)
      simp only [execute_ret hsp hslot, listed, ListMachine.execute, hlast, ← hleft]
      rfl
  by_cases hcall : ∃ target, i = .call target
  · obtain ⟨target, rfl⟩ := hcall
    have hlength := length_callers_of_le h
    by_cases hsp : m.sp.toNat < 16
    · have hroom : m.callers.length ≠ stackDepth := by
        rw [hlength]
        exact Nat.ne_of_lt hsp
      simp only [execute_call hsp, listed, ListMachine.execute, hroom, ↓reduceIte,
        callers_call hsp target]
      rfl
    · have hfull : m.listed.calls.length = stackDepth :=
        hlength.trans (Nat.le_antisymm h (Nat.le_of_not_lt hsp))
      have hstalls : m.execute dialect d (.call target) = ⟨.unchanged, m, d⟩ :=
        Stalls.execute (.noRoom hsp) dialect d
      simp only [hstalls, ListMachine.execute, if_pos hfull]
  -- Putting the machine's own stack in place of the empty one tells that it is left alone as well.
  · have hother : ∀ target, i ≠ .call target := fun target he => hcall ⟨target, he⟩
    have hcore := execute_withStack hret hother dialect m d 0 (Vector.replicate 16 0)
    have hown := execute_withStack hret hother dialect m d m.sp m.stack
    have hcallers : (m.execute dialect d i).machine.callers = m.callers :=
      congrArg (fun e => e.machine.callers) hown
    rw [ListMachine.execute_core hret hother]
    simp only [listed, ListMachine.onCore, hcore, hcallers]

theorem listed_turn {m : Machine} (h : m.sp.toNat ≤ stackDepth) (t : Turn) :
    m.listed.turn t = ((m.turn t).1, (m.turn t).2.listed) := by
  simp only [ListMachine.turn, turn, executeWord]
  cases Instruction.decode? t.word with
  | none => rfl
  | some i => exact listed_execute h t.dialect t.devices i

/-- The machines differ at most in slots of the call stack that no open call uses. -/
structure SameButLeftovers (m n : Machine) : Prop where
  rest : n = m.withStack m.sp n.stack
  live : ∀ k (h : k < 16), k < m.sp.toNat → m.stack[k] = n.stack[k]

namespace SameButLeftovers

variable {m n : Machine}

theorem sp (h : SameButLeftovers m n) : n.sp = m.sp := by
  have hsp := congrArg Machine.sp h.rest
  exact hsp

theorem callers (h : SameButLeftovers m n) : m.callers = n.callers := by
  unfold Machine.callers
  rw [h.sp]
  apply List.ext_getElem
  · simp
  · intro k hk _
    obtain ⟨hlive, hslot⟩ := Nat.lt_min.mp (by simpa using hk)
    simpa using h.live k hslot hlive

theorem listed (h : SameButLeftovers m n) : m.listed = n.listed := by
  have hcore : n.withStack 0 (Vector.replicate 16 0) = m.withStack 0 (Vector.replicate 16 0) :=
    congrArg (·.withStack 0 (Vector.replicate 16 0)) h.rest
  rw [Machine.listed, Machine.listed, h.callers, hcore]

/-- With a counter past the last slot, every slot counts as used. -/
theorem eq_of_lt (h : SameButLeftovers m n) (hsp : stackDepth < m.sp.toNat) : m = n := by
  have hstack : m.stack = n.stack :=
    Vector.ext fun k hk => h.live k hk (Nat.lt_trans hk hsp)
  rw [h.rest, ← hstack]
  rfl

theorem of_listed (hm : m.sp.toNat ≤ stackDepth) (hn : n.sp.toNat ≤ stackDepth)
    (h : m.listed = n.listed) : SameButLeftovers m n := by
  have hcallers : m.callers = n.callers := congrArg ListMachine.calls h
  have hcore := congrArg ListMachine.core h
  have hsp : m.sp = n.sp := by
    apply UInt8.toNat_inj.mp
    rw [← length_callers_of_le hm, ← length_callers_of_le hn, hcallers]
  refine ⟨?_, ?_⟩
  · have hback := congrArg (·.withStack n.sp n.stack) hcore
    rw [hsp]
    exact hback.symm
  · intro k hk hlive
    have hslot : m.callers[k]? = n.callers[k]? := by rw [hcallers]
    rw [Machine.callers, Machine.callers, List.getElem?_take_of_lt hlive,
      List.getElem?_take_of_lt (hsp ▸ hlive)] at hslot
    simpa [hk] using hslot

/-- No instruction tells the machines apart. -/
theorem turn (h : SameButLeftovers m n) (t : Turn) :
    (m.turn t).1 = (n.turn t).1 ∧ SameButLeftovers (m.turn t).2 (n.turn t).2 := by
  rcases Nat.lt_or_ge stackDepth m.sp.toNat with hsp | hm
  · rw [h.eq_of_lt hsp]
    exact ⟨rfl, rfl, fun _ _ _ => rfl⟩
  · have hn : n.sp.toNat ≤ stackDepth := by rwa [h.sp]
    have hturn : ((m.turn t).1, (m.turn t).2.listed) = ((n.turn t).1, (n.turn t).2.listed) := by
      rw [← listed_turn hm, ← listed_turn hn, h.listed]
    obtain ⟨hanswer, hlisted⟩ := Prod.mk.inj hturn
    exact ⟨hanswer, of_listed (sp_le_executeWord hm _ _ _) (sp_le_executeWord hn _ _ _) hlisted⟩

end SameButLeftovers

theorem listed_runAll (turns : List Turn) :
    (runAll turn .initial turns).1 = (runAll ListMachine.turn .initial turns).1 ∧
      (runAll turn .initial turns).2.sp.toNat ≤ stackDepth ∧
      (runAll turn .initial turns).2.listed = (runAll ListMachine.turn .initial turns).2 := by
  refine runAll_related (R := fun (m : Machine) r => m.sp.toNat ≤ stackDepth ∧ m.listed = r)
    ?_ ?_ turns
  · rintro m r t ⟨hsp, rfl⟩
    rw [listed_turn hsp]
    exact ⟨rfl, sp_le_executeWord hsp _ _ _, rfl⟩
  · exact ⟨by decide, rfl⟩

theorem call_unchanged_iff {m : Machine} (h : m.sp.toNat ≤ stackDepth) (dialect : Dialect)
    (d : Devices) (target : Address) :
    (m.execute dialect d (.call target)).update = .unchanged ↔ m.callers.length = stackDepth := by
  rw [length_callers_of_le h]
  by_cases hsp : m.sp.toNat < 16
  · rw [execute_call hsp]
    exact iff_of_false nofun (Nat.ne_of_lt hsp)
  · rw [Stalls.execute (.noRoom hsp)]
    exact iff_of_true rfl (Nat.le_antisymm h (Nat.le_of_not_lt hsp))

theorem ret_unchanged_iff {m : Machine} (h : m.sp.toNat ≤ stackDepth) (dialect : Dialect)
    (d : Devices) : (m.execute dialect d .ret).update = .unchanged ↔ m.callers = [] := by
  rw [← List.getLast?_eq_none_iff]
  by_cases hsp : m.sp = 0
  · rw [Stalls.execute (.noCaller (.inl hsp))]
    exact iff_of_true rfl (InBounds.no_caller hsp)
  · obtain ⟨caller, -, hslot, hlast⟩ := caller_of_le h hsp
    rw [execute_ret hsp hslot, hlast]
    exact iff_of_false nofun nofun

/-- Whatever is executed, and with whatever devices, the open calls are a list of at most sixteen
addresses to which a call adds where it was made and from which a return takes the newest. What is
left over in the slots shows in no answer. -/
theorem call_stack_is_bounded_list :
    (∀ turns : List Turn,
      let m := (runAll turn .initial turns).2
      let r := (runAll ListMachine.turn .initial turns).2
      (runAll turn .initial turns).1 = (runAll ListMachine.turn .initial turns).1 ∧
        m.callers = r.calls ∧ m.withStack 0 (Vector.replicate 16 0) = r.core ∧
        m.callers.length ≤ stackDepth ∧
        ∀ dialect d,
          (∀ target, (m.execute dialect d (.call target)).update = .unchanged ↔
            m.callers.length = stackDepth) ∧
          ((m.execute dialect d .ret).update = .unchanged ↔ m.callers = [])) ∧
    ∀ m n : Machine, SameButLeftovers m n → ∀ t : Turn,
      (m.turn t).1 = (n.turn t).1 ∧ SameButLeftovers (m.turn t).2 (n.turn t).2 := by
  refine ⟨?_, fun m n h t => h.turn t⟩
  intro turns m r
  obtain ⟨hanswers, hsp, hlisted⟩ := listed_runAll turns
  refine ⟨hanswers, congrArg ListMachine.calls hlisted, congrArg ListMachine.core hlisted, ?_, ?_⟩
  · rw [length_callers_of_le hsp]
    exact hsp
  · intro dialect d
    exact ⟨call_unchanged_iff hsp dialect d, ret_unchanged_iff hsp dialect d⟩

/-- Seventeen calls nested in each other, of which the last is refused. After fifteen returns the
slots of fifteen calls are left over; without them the machine goes on in the same way. -/
theorem leftovers_of_sixteen_calls :
    let d : Devices := ⟨.blank, .idle, .ofSeed 7⟩
    let turns : List Turn :=
      List.replicate 17 ⟨.modern, d, 0x2204⟩ ++ List.replicate 15 ⟨.modern, d, 0x00EE⟩
    let m := (runAll turn .initial turns).2
    let cleared := m.withStack m.sp ((Vector.replicate 16 0).set 0 0x200)
    ((runAll turn .initial turns).1.map (·.1)).findIdx? (· = .unchanged) = some 16 ∧
      (runAll ListMachine.turn .initial turns).2.calls = [0x200] ∧ m.callers = [0x200] ∧
      m ≠ cleared ∧ SameButLeftovers m cleared ∧
      ∀ t : Turn, (m.turn t).1 = (cleared.turn t).1 ∧
        SameButLeftovers (m.turn t).2 (cleared.turn t).2 := by
  intro d turns m cleared
  obtain ⟨hrefused, hcalls⟩ :
      ((runAll turn .initial turns).1.map (·.1)).findIdx? (· = .unchanged) = some 16 ∧
        (runAll ListMachine.turn .initial turns).2.calls = [0x200] := by
    decide +kernel
  obtain ⟨hne, hlive⟩ : m ≠ cleared ∧
      ∀ k (h : k < 16), k < m.sp.toNat → m.stack[k] = cleared.stack[k] := by
    decide +kernel
  obtain ⟨hrun, hleft⟩ := call_stack_is_bounded_list
  obtain ⟨-, hcallers, -, -, -⟩ := hrun turns
  have hsame : SameButLeftovers m cleared := ⟨rfl, hlive⟩
  exact ⟨hrefused, hcalls, hcallers.trans hcalls, hne, hsame, hleft m cleared hsame⟩

end Machine

end Chip8
