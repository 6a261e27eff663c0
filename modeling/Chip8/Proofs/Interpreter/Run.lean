import Chip8.Proofs.History.Refinement
import Chip8.Proofs.Interpreter.Operation

namespace Chip8

namespace Interpreter

/-- The interpreter a list of operations leaves. -/
def after (i : Interpreter) (ops : List Operation) : Interpreter := (i.performAll ops).2

theorem performAll_eq_runAll (i : Interpreter) (ops : List Operation) :
    i.performAll ops = runAll perform i ops := by
  induction ops generalizing i with
  | nil => rfl
  | cons op ops ih => simp only [performAll, runAll, ih]

@[simp]
theorem after_nil (i : Interpreter) : i.after [] = i := rfl

@[simp]
theorem after_cons (i : Interpreter) (op : Operation) (ops : List Operation) :
    i.after (op :: ops) = (i.perform op).2.after ops := rfl

theorem after_append (i : Interpreter) (xs ys : List Operation) :
    i.after (xs ++ ys) = (i.after xs).after ys := by
  simp only [after, performAll_eq_runAll, runAll_append]

theorem after_load {i loaded : Interpreter} {rom : List UInt8} (h : i.load rom = .ok loaded) :
    i.after [.load rom] = loaded := by
  simp only [after_cons, after_nil, perform, h]

/-- The interpreter after operations that are listed the newest first. -/
def reached (start : Interpreter) (past : List Operation) : Interpreter := start.after past.reverse

theorem reached_cons (start : Interpreter) (op : Operation) (past : List Operation) :
    start.reached (op :: past) = ((start.reached past).perform op).2 := by
  simp only [reached, List.reverse_cons, after_append, after_cons, after_nil]

/-- Each operation of a run meets a condition when its turn comes. -/
def Throughout (P : Interpreter → Operation → Prop) (i : Interpreter) : List Operation → Prop
  | [] => True
  | op :: ops => P i op ∧ (i.perform op).2.Throughout P ops

instance decidableThroughout {P : Interpreter → Operation → Prop} [∀ i op, Decidable (P i op)] :
    (i : Interpreter) → (ops : List Operation) → Decidable (i.Throughout P ops)
  | _, [] => isTrue trivial
  | i, op :: ops =>
    have := decidableThroughout (P := P) (i.perform op).2 ops
    inferInstanceAs (Decidable (P i op ∧ (i.perform op).2.Throughout P ops))

theorem Throughout.invariant {P : Interpreter → Operation → Prop} {Q : Interpreter → Prop}
    (hstep : ∀ j op, P j op → Q j → Q (j.perform op).2) {i : Interpreter} {ops : List Operation}
    (h : i.Throughout P ops) (hi : Q i) : Q (i.after ops) := by
  induction ops generalizing i with
  | nil => exact hi
  | cons op ops ih =>
    obtain ⟨hop, hrest⟩ := h
    exact ih hrest (hstep i op hop hi)

theorem throughout_append {P : Interpreter → Operation → Prop} {i : Interpreter}
    {xs ys : List Operation} :
    i.Throughout P (xs ++ ys) ↔ i.Throughout P xs ∧ (i.after xs).Throughout P ys := by
  induction xs generalizing i with
  | nil => exact ⟨fun h => ⟨trivial, h⟩, fun h => h.2⟩
  | cons op xs ih => simp only [List.cons_append, Throughout, ih, after_cons, and_assoc]

/-- A condition that an invariant brings with it is met throughout. -/
theorem throughout_of_invariant {P : Interpreter → Operation → Prop} {Q : Interpreter → Prop}
    {ops : List Operation} (hstep : ∀ j, ∀ op ∈ ops, Q j → P j op ∧ Q (j.perform op).2)
    {i : Interpreter} (hi : Q i) : i.Throughout P ops := by
  induction ops generalizing i with
  | nil => trivial
  | cons op ops ih =>
    obtain ⟨hop, hnext⟩ := hstep i op List.mem_cons_self hi
    refine ⟨hop, ih ?_ hnext⟩
    intro j later hlater
    exact hstep j later (List.mem_cons_of_mem op hlater)

/-- What each operation of a list keeps, whenever its turn comes, the run keeps. -/
theorem after_invariant {Q : Interpreter → Prop} {ops : List Operation}
    (hstep : ∀ j, ∀ op ∈ ops, Q j → Q (j.perform op).2) {i : Interpreter} (hi : Q i) :
    Q (i.after ops) := by
  rw [Interpreter.after, performAll_eq_runAll]
  exact runAll_invariant hstep hi

theorem paused_after {i : Interpreter} {ops : List Operation} (h : .togglePause ∉ ops) :
    (i.after ops).paused = i.paused := by
  refine after_invariant (Q := fun j => j.paused = i.paused) ?_ rfl
  intro j op hop hj
  rw [perform_eq]
  cases op with
  | togglePause => exact absurd hop h
  | _ => exact hj

/-- Made with whatever source of random numbers and driven by whatever operations. -/
def Reachable (i : Interpreter) : Prop :=
  ∃ dialect random ops, i = (new dialect random).after ops

theorem Reachable.after {i : Interpreter} (h : i.Reachable) (ops : List Operation) :
    (i.after ops).Reachable := by
  obtain ⟨dialect, random, past, rfl⟩ := h
  exact ⟨dialect, random, past ++ ops, (after_append _ past ops).symm⟩

theorem Reachable.invariant {P : Interpreter → Prop}
    (hnew : ∀ dialect random, P (new dialect random))
    (hperform : ∀ i op, P i → P (i.perform op).2) {i : Interpreter} (h : i.Reachable) : P i := by
  obtain ⟨dialect, random, ops, rfl⟩ := h
  rw [Interpreter.after, performAll_eq_runAll]
  exact runAll_invariant (fun i op _ => hperform i op) (hnew dialect random)

theorem Reachable.standsFor {i : Interpreter} (h : i.Reachable) :
    i.history.StandsFor History.defaultCapacity i.history.timeline := by
  refine h.invariant (P := fun i => i.history.StandsFor _ i.history.timeline) ?_ ?_
  · intro dialect random
    have hs := History.StandsFor.new Machine.initial
    rw [← hs.timeline] at hs
    exact hs
  · intro i op hs
    rw [history_perform]
    cases i.historyOperation op with
    | none => exact hs
    | some op =>
      obtain ⟨-, hnext⟩ := hs.perform op
      rw [← hnext.timeline] at hnext
      exact hnext

theorem Reachable.capacity {i : Interpreter} (h : i.Reachable) : i.history.capacity = 1000 :=
  h.standsFor.capacity

theorem Reachable.behind_le_depth {i : Interpreter} (h : i.Reachable) :
    i.history.behind ≤ i.history.depth :=
  h.standsFor.shows.behind_le_depth

end Interpreter

end Chip8
