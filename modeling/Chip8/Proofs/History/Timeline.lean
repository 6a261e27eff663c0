import Chip8.History

namespace Chip8

/-- All that can be asked of a history. -/
inductive History.Operation (α : Type)
  | commit (state : α)
  | back
  | forward
  | edit (f : α → α)
  | reset (initial : α)

/-- The answer tells whether a move showed another state. Nothing else is answered. -/
def History.perform {α : Type} (h : History α) : History.Operation α → Option Bool × History α
  | .commit state => (none, h.commit state)
  | .back =>
    match h.stepBack? with
    | some h => (some true, h)
    | none => (some false, h)
  | .forward =>
    match h.stepForward? with
    | some h => (some true, h)
    | none => (some false, h)
  | .edit f => (none, h.modifyCurrent f)
  | .reset initial => (none, h.reset initial)

structure Timeline (α : Type) where
  /-- The newest comes first. -/
  states : List α
  /-- How many states are newer than the one on show. -/
  cursor : Nat
  /-- States recorded since the start or the last reset. -/
  commits : Nat

namespace Timeline

variable {α : Type}

def start (initial : α) : Timeline α := ⟨[initial], 0, 0⟩

/-- A new state comes to the front. The oldest goes when there are too many. -/
def commit (capacity : Nat) (t : Timeline α) (state : α) : Timeline α :=
  ⟨(state :: t.states).take capacity, 0, t.commits + 1⟩

def stepBack? (t : Timeline α) : Option (Timeline α) :=
  if t.cursor + 1 < t.states.length then some { t with cursor := t.cursor + 1 } else none

def stepForward? (t : Timeline α) : Option (Timeline α) :=
  if t.cursor ≠ 0 then some { t with cursor := t.cursor - 1 } else none

def modifyCurrent (t : Timeline α) (f : α → α) : Timeline α :=
  { t with states := t.states.modify t.cursor f }

def perform (capacity : Nat) (t : Timeline α) : History.Operation α → Option Bool × Timeline α
  | .commit state => (none, t.commit capacity state)
  | .back =>
    match t.stepBack? with
    | some t => (some true, t)
    | none => (some false, t)
  | .forward =>
    match t.stepForward? with
    | some t => (some true, t)
    | none => (some false, t)
  | .edit f => (none, t.modifyCurrent f)
  | .reset initial => (none, start initial)

/-- Moves change the cursor alone. -/
theorem perform_back (capacity : Nat) (t : Timeline α) :
    (t.perform capacity .back).2.states = t.states ∧
      (t.perform capacity .back).2.commits = t.commits := by
  simp only [perform, stepBack?]
  by_cases h : t.cursor + 1 < t.states.length <;> simp [h]

theorem perform_forward (capacity : Nat) (t : Timeline α) :
    (t.perform capacity .forward).2.states = t.states ∧
      (t.perform capacity .forward).2.commits = t.commits := by
  simp only [perform, stepForward?]
  by_cases h : t.cursor = 0 <;> simp [h]

/-- The cursor never leaves the list. -/
theorem perform_cursor_lt {capacity : Nat} (hc : 0 < capacity) {t : Timeline α}
    (ht : t.cursor < t.states.length) (op : History.Operation α) :
    (t.perform capacity op).2.cursor < (t.perform capacity op).2.states.length := by
  cases op with
  | commit state =>
    simp only [perform, commit, List.length_take, List.length_cons]
    omega
  | back =>
    simp only [perform, stepBack?]
    by_cases h : t.cursor + 1 < t.states.length
    · simp [h]
    · simpa [h] using ht
  | forward =>
    simp only [perform, stepForward?]
    by_cases h : t.cursor = 0
    · simpa [h] using ht
    · simp only [ne_eq, h, not_false_eq_true, ↓reduceIte]
      omega
  | edit f => simpa [perform, modifyCurrent] using ht
  | reset initial => simp [perform, start]

end Timeline

end Chip8
