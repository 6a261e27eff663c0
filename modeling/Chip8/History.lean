namespace Chip8

/-- A ring of the states computed last, with a cursor for going back over them. When the ring is
full a new state takes the place of the oldest. -/
structure History (α : Type) where
  slots : Array α
  /-- The newest state. Indices agree with those of 64-bit words in a ring of at most 2 ^ 63 slots:
  no sum of two of them and no index plus the capacity is then 2 ^ 64 or more. -/
  head : Nat
  /-- The state on show: the newest one, or an older one after going back. -/
  current : Nat
  /-- States recorded since the start or the last reset. A 64-bit count agrees with it as long as
  there are fewer than 2 ^ 64. -/
  commits : Nat
  head_lt : head < slots.size
  current_lt : current < slots.size

/-- Why a history cannot be set up. -/
inductive HistoryError
  | noSlots
  deriving DecidableEq, Repr

def HistoryError.message : HistoryError → String
  | .noSlots => "history needs at least one slot"

namespace History

variable {α : Type}

def defaultCapacity : Nat := 1000

def ofCapacity (capacity : Nat) (initial : α) (h : 0 < capacity) : History α where
  slots := Array.replicate capacity initial
  head := 0
  current := 0
  commits := 0
  head_lt := by simpa using h
  current_lt := by simpa using h

def create (capacity : Nat) (initial : α) : Except HistoryError (History α) :=
  if h : 0 < capacity then .ok (ofCapacity capacity initial h) else .error .noSlots

def new (initial : α) : History α := ofCapacity defaultCapacity initial (by decide)

def capacity (h : History α) : Nat := h.slots.size

theorem slots_pos (h : History α) : 0 < h.slots.size :=
  Nat.lt_of_le_of_lt h.head.zero_le h.head_lt

def currentState (h : History α) : α :=
  have := h.current_lt
  h.slots[h.current]

def headState (h : History α) : α :=
  have := h.head_lt
  h.slots[h.head]

def isReplaying (h : History α) : Bool := h.current != h.head

/-- How many states are newer than the one on show. -/
def behind (h : History α) : Nat := (h.head + h.capacity - h.current) % h.capacity

/-- How many states older than the newest are still in the ring. -/
def depth (h : History α) : Nat := min h.commits (h.capacity - 1)

/-- The slot after an index, around the ring. -/
def after (h : History α) (index : Nat) : Nat := (index + 1) % h.capacity

/-- The slot before an index, around the ring. -/
def before (h : History α) (index : Nat) : Nat := (index + h.capacity - 1) % h.capacity

theorem after_lt (h : History α) (index : Nat) : h.after index < h.slots.size :=
  Nat.mod_lt _ h.slots_pos

theorem before_lt (h : History α) (index : Nat) : h.before index < h.slots.size :=
  Nat.mod_lt _ h.slots_pos

/-- Forgets every state and starts over from one. -/
def reset (h : History α) (initial : α) : History α where
  slots := h.slots.set 0 initial h.slots_pos
  head := 0
  current := 0
  commits := 0
  head_lt := by simpa using h.slots_pos
  current_lt := by simpa using h.slots_pos

/-- Records a state as the newest and shows it. -/
def commit (h : History α) (state : α) : History α where
  slots := h.slots.set (h.after h.head) state (h.after_lt _)
  head := h.after h.head
  current := h.after h.head
  commits := h.commits + 1
  head_lt := by simpa using h.after_lt h.head
  current_lt := by simpa using h.after_lt h.head

/-- Changes the state on show in place. -/
def modifyCurrent (h : History α) (f : α → α) : History α :=
  { h with
    slots := h.slots.set h.current (f h.currentState) h.current_lt
    head_lt := by simpa using h.head_lt
    current_lt := by simpa using h.current_lt }

/-- Shows the next newer state, if there is one. -/
def stepForward? (h : History α) : Option (History α) :=
  if h.isReplaying then
    some { h with current := h.after h.current, current_lt := h.after_lt _ }
  else none

/-- Shows the next older state, if it is still in the ring. -/
def stepBack? (h : History α) : Option (History α) :=
  if h.depth ≤ h.behind then none
  else some { h with current := h.before h.current, current_lt := h.before_lt _ }

end History

end Chip8
