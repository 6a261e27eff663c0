import Mathlib.Data.List.Forall2
import Mathlib.Data.List.Induction
import Mathlib.Logic.Relation
import Chip8.Proofs.History.Ring
import Chip8.Proofs.Run

namespace Chip8.History

variable {α : Type}

/-- Whatever can be read off a history is what the list says. -/
structure Shows (slots : Nat) (h : History α) (t : Timeline α) : Prop where
  capacity : h.capacity = slots
  current : t.states[t.cursor]? = some h.currentState
  head : t.states[0]? = some h.headState
  behind : h.behind = t.cursor
  depth : h.depth = t.states.length - 1
  replaying : h.isReplaying = true ↔ t.cursor ≠ 0
  commits : h.commits = t.commits
  behind_le_depth : h.behind ≤ h.depth
  length_le : t.states.length ≤ slots

theorem shows_timeline (h : History α) (hb : h.behind ≤ h.depth) :
    Shows h.capacity h h.timeline where
  capacity := rfl
  current := by
    change h.states[h.behind]? = _
    rw [states_getElem?, if_pos hb, stateBehind_behind]
  head := by
    change h.states[0]? = _
    rw [states_getElem?, if_pos (Nat.zero_le _), stateBehind_zero]
  behind := rfl
  depth := by simp [timeline]
  replaying := h.isReplaying_iff
  commits := rfl
  behind_le_depth := hb
  length_le := by
    have := h.depth_lt_capacity
    simp only [timeline, length_states]
    omega

theorem timeline_ofCapacity (capacity : Nat) (initial : α) (hc : 0 < capacity) :
    (ofCapacity capacity initial hc).timeline = .start initial := by
  have hd : (ofCapacity capacity initial hc).depth = 0 := by simp [depth, ofCapacity]
  have hs : (ofCapacity capacity initial hc).stateBehind 0 = initial := by
    rw [stateBehind_zero]
    simp [headState, ofCapacity]
  have hb : (ofCapacity capacity initial hc).behind = 0 := by simp [behind_eq, ofCapacity]
  have hstates : (ofCapacity capacity initial hc).states = [initial] := by simp [states, hd, hs]
  simp only [timeline, Timeline.start, hstates, hb]
  rfl

/-- The relation that a run keeps: the ring stands for the list, and the cursor is in the list. -/
structure StandsFor (slots : Nat) (h : History α) (t : Timeline α) : Prop where
  capacity : h.capacity = slots
  timeline : h.timeline = t
  cursor_lt : t.cursor < t.states.length

theorem StandsFor.shows {capacity : Nat} {h : History α} {t : Timeline α}
    (hr : StandsFor capacity h t) : Shows capacity h t := by
  have hb : h.behind ≤ h.depth := by
    have hlt := hr.cursor_lt
    rw [← hr.timeline] at hlt
    simp only [History.timeline, length_states] at hlt
    omega
  have hs := h.shows_timeline hb
  rwa [hr.timeline, hr.capacity] at hs

theorem StandsFor.start (capacity : Nat) (initial : α) (hc : 0 < capacity) :
    StandsFor capacity (ofCapacity capacity initial hc) (.start initial) where
  capacity := by simp [History.capacity, ofCapacity]
  timeline := timeline_ofCapacity capacity initial hc
  cursor_lt := by simp [Timeline.start]

theorem StandsFor.new (initial : α) :
    StandsFor defaultCapacity (History.new initial) (.start initial) :=
  .start defaultCapacity initial (by decide)

theorem StandsFor.perform {capacity : Nat} {h : History α} {t : Timeline α}
    (hr : StandsFor capacity h t) (op : Operation α) :
    (h.perform op).1 = (t.perform capacity op).1 ∧
      StandsFor capacity (h.perform op).2 (t.perform capacity op).2 := by
  have hc : 0 < capacity := by
    rw [← hr.capacity]
    exact h.slots_pos
  obtain ⟨hanswer, hnext⟩ := h.timeline_perform op
  rw [hr.capacity, hr.timeline] at hanswer hnext
  exact ⟨hanswer, (h.capacity_perform op).trans hr.capacity, hnext,
    Timeline.perform_cursor_lt hc hr.cursor_lt op⟩

/-- What a run has recorded since the last reset, the newest first and the argument of the reset
last. Moves and edits record nothing. -/
def record (past : List α) : Operation α → List α
  | .commit state => state :: past
  | .reset initial => [initial]
  | _ => past

def recorded (initial : α) (ops : List (Operation α)) : List α := ops.foldl record [initial]

/-- A value is what edits of the run have made of another. -/
def EditedFrom (ops : List (Operation α)) : α → α → Prop :=
  Relation.ReflTransGen fun a b => ∃ f, Operation.edit f ∈ ops ∧ f a = b

theorem EditedFrom.append {ops : List (Operation α)} {a b : α} (h : EditedFrom ops a b)
    (op : Operation α) : EditedFrom (ops ++ [op]) a b :=
  Relation.ReflTransGen.mono
    (fun _ _ ⟨f, hf, he⟩ => ⟨f, List.mem_append_left _ hf, he⟩) _ _ h

theorem forall₂_modify {R : α → α → Prop} {xs ys : List α} (h : List.Forall₂ R xs ys) (k : Nat)
    (f : α → α) (hf : ∀ a b, R a b → R a (f b)) : List.Forall₂ R xs (ys.modify k f) := by
  induction h generalizing k with
  | nil => simp
  | cons hab htail ih =>
    cases k with
    | zero => exact .cons (hf _ _ hab) htail
    | succ k => exact .cons hab (ih k)

/-- The list holds the values recorded last, edited by the run and by nothing else. A value from
before the last reset, or one with too many newer ones, is not among them. -/
theorem states_edited_from_recorded {capacity : Nat} (hc : 0 < capacity) (initial : α)
    (ops : List (Operation α)) :
    List.Forall₂ (EditedFrom ops) ((recorded initial ops).take capacity)
        (runAll (Timeline.perform capacity) (.start initial) ops).2.states ∧
      (runAll (Timeline.perform capacity) (.start initial) ops).2.commits + 1 =
        (recorded initial ops).length := by
  obtain ⟨c, rfl⟩ : ∃ c, capacity = c + 1 := ⟨capacity - 1, by omega⟩
  induction ops using List.reverseRecOn with
  | nil => exact ⟨by simpa [recorded] using .cons .refl .nil, rfl⟩
  | append_singleton ops op ih =>
    obtain ⟨hstates, hcommits⟩ := ih
    have hkept := hstates.imp fun _ _ h => h.append op
    simp only [runAll_append, recorded, List.foldl_append, List.foldl_cons, List.foldl_nil]
    change List.Forall₂ _ ((record (recorded initial ops) op).take (c + 1))
      (Timeline.perform (c + 1) _ op).2.states ∧
        (Timeline.perform (c + 1) _ op).2.commits + 1 = (record (recorded initial ops) op).length
    generalize (runAll (Timeline.perform (c + 1)) (.start initial) ops).2 = t at hcommits hkept ⊢
    cases op with
    | commit state =>
      refine ⟨?_, by simpa [record, Timeline.perform, Timeline.commit] using hcommits⟩
      have htail := List.forall₂_take c hkept
      rw [List.take_take, Nat.min_eq_left (Nat.le_succ c)] at htail
      exact .cons .refl htail
    | back =>
      obtain ⟨hs, hn⟩ := t.perform_back (c + 1)
      rw [hs, hn]
      exact ⟨hkept, hcommits⟩
    | forward =>
      obtain ⟨hs, hn⟩ := t.perform_forward (c + 1)
      rw [hs, hn]
      exact ⟨hkept, hcommits⟩
    | edit f =>
      refine ⟨forall₂_modify hkept t.cursor f fun a b hab => hab.tail ⟨f, ?_, rfl⟩, hcommits⟩
      exact List.mem_append_right _ (List.mem_singleton.mpr rfl)
    | reset initial => exact ⟨by simpa [record] using .cons .refl .nil, rfl⟩

/-- A ring of any capacity answers each run of operations as a list of at most so many states with a
cursor does, and shows at its end what the list shows. -/
theorem ring_refines_timeline (capacity : Nat) (initial : α) (ops : List (Operation α))
    (hc : 0 < capacity) :
    ∃ h t, create capacity initial = .ok h ∧
      runAll (Timeline.perform capacity) (.start initial) ops = ((runAll perform h ops).1, t) ∧
      Shows capacity (runAll perform h ops).2 t ∧
      List.Forall₂ (EditedFrom ops) ((recorded initial ops).take capacity) t.states ∧
      t.commits + 1 = (recorded initial ops).length := by
  have hcreate : create capacity initial = .ok (ofCapacity capacity initial hc) := dif_pos hc
  obtain ⟨hanswers, hend⟩ := runAll_related (R := StandsFor capacity)
    (fun _ _ op hr => hr.perform op) (.start capacity initial hc) ops
  obtain ⟨hedited, hcommits⟩ := states_edited_from_recorded hc initial ops
  exact ⟨_, _, hcreate, Prod.ext hanswers.symm rfl, hend.shows, hedited, hcommits⟩

/-- With two slots the edited 1 goes when 3 is recorded, and going back shows 2. -/
theorem ring_of_two_forgets :
    0 < 2 ∧ ∃ h answers g, create 2 0 = .ok h ∧
      runAll perform h [.commit 1, .commit 2, .back, .back, .edit (· + 10), .commit 3, .back] =
        (answers, g) ∧
      answers = [none, none, some true, some false, none, none, some true] ∧
      g.currentState = 2 ∧ g.headState = 3 ∧ g.behind = 1 ∧ g.depth = 1 ∧ g.commits = 3 := by
  obtain ⟨h, t, hcreate, hrun, hshows, -, -⟩ := ring_refines_timeline 2 0
    [.commit 1, .commit 2, .back, .back, .edit (· + 10), .commit 3, .back] (by decide)
  have hlist : runAll (Timeline.perform 2) (.start 0)
      [.commit 1, .commit 2, .back, .back, .edit (· + 10), .commit 3, .back] =
      ([none, none, some true, some false, none, none, some true], ⟨[3, 2], 1, 3⟩) := rfl
  rw [hlist] at hrun
  obtain ⟨hanswers, rfl⟩ := Prod.mk.inj hrun
  refine ⟨by decide, h, _, _, hcreate, (Prod.eta _).symm, hanswers.symm, ?_, ?_, ?_, ?_, ?_⟩
  · exact (Option.some.inj hshows.current).symm
  · exact (Option.some.inj hshows.head).symm
  · exact hshows.behind
  · exact hshows.depth
  · exact hshows.commits

end Chip8.History
