import Chip8.Proofs.History.Timeline

namespace Chip8

/-- All indices of the ring stay below twice its capacity, so they wrap at most once. -/
theorem mod_once {x c : Nat} (h : x < 2 * c) : x % c = if x < c then x else x - c := by
  split
  · rename_i hx
    exact Nat.mod_eq_of_lt hx
  · rw [Nat.mod_eq_sub_mod (by omega), Nat.mod_eq_of_lt (by omega)]

namespace History

variable {α : Type}

/-- Where the state is that was recorded so many commits before the newest. -/
def slotBehind (h : History α) (k : Nat) : Nat := (h.head + h.capacity - k) % h.capacity

theorem slotBehind_lt (h : History α) (k : Nat) : h.slotBehind k < h.slots.size :=
  Nat.mod_lt _ h.slots_pos

def stateBehind (h : History α) (k : Nat) : α :=
  have := h.slotBehind_lt k
  h.slots[h.slotBehind k]

/-- The states that are still in the ring, the newest first. -/
def states (h : History α) : List α := (List.range (h.depth + 1)).map h.stateBehind

def timeline (h : History α) : Timeline α := ⟨h.states, h.behind, h.commits⟩

theorem head_lt_capacity (h : History α) : h.head < h.capacity := h.head_lt

theorem current_lt_capacity (h : History α) : h.current < h.capacity := h.current_lt

theorem slotBehind_eq (h : History α) {k : Nat} (hk : k ≤ h.capacity) :
    h.slotBehind k = if k ≤ h.head then h.head - k else h.head + h.capacity - k := by
  have hh := h.head_lt_capacity
  unfold slotBehind
  by_cases hle : k ≤ h.head
  · have he : h.head + h.capacity - k = (h.head - k) + h.capacity := by omega
    rw [if_pos hle, he, Nat.add_mod_right, Nat.mod_eq_of_lt (by omega)]
  · rw [if_neg hle, Nat.mod_eq_of_lt (by omega)]

theorem behind_eq (h : History α) :
    h.behind = if h.current ≤ h.head then h.head - h.current
      else h.head + h.capacity - h.current :=
  h.slotBehind_eq (Nat.le_of_lt h.current_lt_capacity)

theorem after_eq (h : History α) {index : Nat} (hi : index < h.capacity) :
    h.after index = if index + 1 < h.capacity then index + 1 else 0 := by
  unfold after
  rw [mod_once (by omega)]
  split <;> omega

theorem before_eq (h : History α) {index : Nat} (hi : index < h.capacity) :
    h.before index = if index = 0 then h.capacity - 1 else index - 1 := by
  unfold before
  rw [mod_once (by omega)]
  split <;> split <;> omega

theorem behind_lt_capacity (h : History α) : h.behind < h.capacity :=
  Nat.mod_lt _ h.slots_pos

theorem depth_lt_capacity (h : History α) : h.depth < h.capacity := by
  have := h.head_lt_capacity
  unfold depth
  omega

/-- The cursor is at the slot that lies as many places back as it trails the head. -/
theorem slotBehind_iff_current (h : History α) {k : Nat} (hk : k < h.capacity) :
    h.slotBehind k = h.current ↔ k = h.behind := by
  have hh := h.head_lt_capacity
  have hc := h.current_lt_capacity
  rw [h.slotBehind_eq (Nat.le_of_lt hk), h.behind_eq]
  split <;> split <;> omega

theorem stateBehind_behind (h : History α) : h.stateBehind h.behind = h.currentState := by
  have he := (h.slotBehind_iff_current h.behind_lt_capacity).mpr rfl
  unfold stateBehind currentState
  simp only [he]

theorem stateBehind_zero (h : History α) : h.stateBehind 0 = h.headState := by
  have he : h.slotBehind 0 = h.head := by
    rw [h.slotBehind_eq (Nat.zero_le _), if_pos (Nat.zero_le _), Nat.sub_zero]
  unfold stateBehind headState
  simp only [he]

theorem after_slotBehind (h : History α) {k : Nat} (hk : k + 1 < h.capacity) :
    h.after (h.slotBehind (k + 1)) = h.slotBehind k := by
  have hh := h.head_lt_capacity
  rw [h.after_eq (h.slotBehind_lt _), h.slotBehind_eq (by omega), h.slotBehind_eq (by omega)]
  rcases Nat.lt_trichotomy k h.head with hlt | heq | hgt
  · rw [if_pos (show k + 1 ≤ h.head by omega), if_pos (by omega), if_pos (by omega)]
    omega
  · rw [if_neg (show ¬ k + 1 ≤ h.head by omega), if_neg (by omega), if_pos (by omega)]
    omega
  · rw [if_neg (show ¬ k + 1 ≤ h.head by omega), if_pos (by omega), if_neg (by omega)]
    omega

theorem before_slotBehind (h : History α) {k : Nat} (hk : k + 1 < h.capacity) :
    h.before (h.slotBehind k) = h.slotBehind (k + 1) := by
  have hh := h.head_lt_capacity
  rw [h.before_eq (h.slotBehind_lt _), h.slotBehind_eq (by omega), h.slotBehind_eq (by omega)]
  rcases Nat.lt_trichotomy k h.head with hlt | heq | hgt
  · rw [if_pos (show k ≤ h.head by omega), if_neg (by omega), if_pos (by omega)]
    omega
  · rw [if_pos (show k ≤ h.head by omega), if_pos (by omega), if_neg (by omega)]
    omega
  · rw [if_neg (show ¬ k ≤ h.head by omega), if_neg (by omega), if_neg (by omega)]
    omega

theorem isReplaying_iff (h : History α) : h.isReplaying = true ↔ h.behind ≠ 0 := by
  have hh := h.head_lt_capacity
  have hc := h.current_lt_capacity
  rw [h.behind_eq]
  simp only [isReplaying, bne_iff_ne, ne_eq]
  split <;> omega

theorem isReplaying_eq_false_iff (h : History α) : h.isReplaying = false ↔ h.behind = 0 := by
  have := h.isReplaying_iff
  cases hr : h.isReplaying <;> simp_all

@[simp]
theorem length_states (h : History α) : h.states.length = h.depth + 1 := by simp [states]

theorem states_getElem? (h : History α) (k : Nat) :
    h.states[k]? = if k ≤ h.depth then some (h.stateBehind k) else none := by
  unfold states
  rw [List.getElem?_map]
  by_cases hk : k ≤ h.depth
  · rw [if_pos hk, List.getElem?_range (by omega), Option.map_some]
  · rw [if_neg hk, List.getElem?_eq_none (by simp; omega), Option.map_none]

@[simp]
theorem capacity_commit (h : History α) (state : α) : (h.commit state).capacity = h.capacity := by
  simp [capacity, commit]

@[simp]
theorem capacity_modifyCurrent (h : History α) (f : α → α) :
    (h.modifyCurrent f).capacity = h.capacity := by
  simp [capacity, modifyCurrent]

@[simp]
theorem capacity_reset (h : History α) (initial : α) : (h.reset initial).capacity = h.capacity := by
  simp [capacity, reset]

/-- A commit overwrites the one slot that is no longer counted. -/
theorem stateBehind_commit (h : History α) (state : α) {k : Nat} (hk : k + 1 < h.capacity) :
    (h.commit state).stateBehind (k + 1) = h.stateBehind k := by
  have hh := h.head_lt_capacity
  have he : (h.commit state).slotBehind (k + 1) = h.slotBehind k := by
    rw [slotBehind_eq _ (by simp; omega), slotBehind_eq _ (by omega), capacity_commit]
    simp only [commit, h.after_eq hh]
    split <;> split <;> split <;> omega
  have hne : h.after h.head ≠ h.slotBehind k := by
    rw [h.after_eq hh, h.slotBehind_eq (by omega)]
    split <;> split <;> omega
  unfold stateBehind
  simp only [he]
  exact Array.getElem_set_ne (h.after_lt _) (by simpa using h.slotBehind_lt k) hne

theorem headState_commit (h : History α) (state : α) : (h.commit state).headState = state := by
  simp [headState, commit]

theorem timeline_commit (h : History α) (state : α) :
    (h.commit state).timeline = h.timeline.commit h.capacity state := by
  have hpos := h.head_lt_capacity
  have hbehind : (h.commit state).behind = 0 := by
    simp [behind_eq, commit]
  have hdepth : (h.commit state).depth = min (h.commits + 1) (h.capacity - 1) := by
    simp [depth, commit, capacity]
  have hstates : (h.commit state).states = (state :: h.states).take h.capacity := by
    apply List.ext_getElem?
    intro k
    rw [states_getElem?, List.getElem?_take, hdepth]
    cases k with
    | zero =>
      rw [stateBehind_zero, headState_commit]
      simp [show 0 < h.capacity by omega]
    | succ k =>
      rw [List.getElem?_cons_succ, states_getElem?]
      by_cases hk : k + 1 < h.capacity
      · rw [stateBehind_commit h state hk, if_pos hk]
        have hiff : k + 1 ≤ min (h.commits + 1) (h.capacity - 1) ↔ k ≤ h.depth := by
          unfold depth
          omega
        simp only [hiff]
      · rw [if_neg hk, if_neg (by omega)]
  simp only [timeline, Timeline.commit, hstates, hbehind]
  rfl

theorem timeline_reset (h : History α) (initial : α) :
    (h.reset initial).timeline = .start initial := by
  have hstates : (h.reset initial).states = [initial] := by
    have hd : (h.reset initial).depth = 0 := by simp [depth, reset]
    have hs : (h.reset initial).stateBehind 0 = initial := by
      rw [stateBehind_zero]
      simp [headState, reset]
    simp [states, hd, hs]
  have hbehind : (h.reset initial).behind = 0 := by simp [behind_eq, reset]
  simp only [timeline, Timeline.start, hstates, hbehind]
  rfl

/-- An edit changes the state on show and no other. -/
theorem stateBehind_modifyCurrent (h : History α) (f : α → α) {k : Nat} (hk : k < h.capacity) :
    (h.modifyCurrent f).stateBehind k =
      if h.behind = k then f (h.stateBehind k) else h.stateBehind k := by
  have he : (h.modifyCurrent f).slotBehind k = h.slotBehind k := by
    unfold slotBehind
    rw [capacity_modifyCurrent]
    rfl
  unfold stateBehind
  simp only [he]
  by_cases hb : h.behind = k
  · have hc := (h.slotBehind_iff_current hk).mpr hb.symm
    simp [modifyCurrent, currentState, hb, hc]
  · have hc : h.current ≠ h.slotBehind k := fun hc =>
      hb ((h.slotBehind_iff_current hk).mp hc.symm).symm
    rw [if_neg hb]
    exact Array.getElem_set_ne h.current_lt (by simpa using h.slotBehind_lt k) hc

theorem timeline_modifyCurrent (h : History α) (f : α → α) :
    (h.modifyCurrent f).timeline = h.timeline.modifyCurrent f := by
  have hdepth : (h.modifyCurrent f).depth = h.depth := by
    unfold depth
    rw [capacity_modifyCurrent]
    rfl
  have hbehind : (h.modifyCurrent f).behind = h.behind := by
    unfold behind
    rw [capacity_modifyCurrent]
    rfl
  have hstates : (h.modifyCurrent f).states = h.states.modify h.behind f := by
    apply List.ext_getElem?
    intro k
    rw [List.getElem?_modify, states_getElem?, states_getElem?, hdepth]
    by_cases hk : k ≤ h.depth
    · have hlt := h.depth_lt_capacity
      rw [stateBehind_modifyCurrent h f (by omega), if_pos hk, if_pos hk]
      by_cases hb : h.behind = k <;> simp [hb]
    · simp [hk]
  simp only [timeline, Timeline.modifyCurrent, hstates, hbehind]
  rfl

/-- Two histories that hold the same states, whichever of them they show. -/
structure SameStates (h g : History α) : Prop where
  slots : g.slots = h.slots
  head : g.head = h.head
  commits : g.commits = h.commits

namespace SameStates

variable {h g : History α}

theorem refl (h : History α) : SameStates h h := ⟨rfl, rfl, rfl⟩

theorem capacity (hs : SameStates h g) : g.capacity = h.capacity := by
  simp only [History.capacity, hs.slots]

theorem depth (hs : SameStates h g) : g.depth = h.depth := by
  simp only [History.depth, hs.commits, hs.capacity]

theorem slotBehind (hs : SameStates h g) (k : Nat) : g.slotBehind k = h.slotBehind k := by
  simp only [History.slotBehind, hs.head, hs.capacity]

theorem stateBehind (hs : SameStates h g) (k : Nat) : g.stateBehind k = h.stateBehind k := by
  simp only [History.stateBehind, hs.slotBehind, hs.slots]

theorem states (hs : SameStates h g) : g.states = h.states := by
  simp only [History.states, hs.depth]
  exact List.map_congr_left fun k _ => hs.stateBehind k

theorem behind_of_current (hs : SameStates h g) {k : Nat} (hk : k < h.capacity)
    (hc : g.current = h.slotBehind k) : g.behind = k :=
  ((g.slotBehind_iff_current (hs.capacity ▸ hk)).mp ((hs.slotBehind k).trans hc.symm)).symm

theorem trans {f : History α} (hs : SameStates h g) (hs' : SameStates g f) :
    SameStates h f :=
  ⟨hs'.slots.trans hs.slots, hs'.head.trans hs.head, hs'.commits.trans hs.commits⟩

theorem commit (hs : SameStates h g) (state : α) :
    SameStates (h.commit state) (g.commit state) := by
  cases h
  cases g
  obtain ⟨rfl, rfl, rfl⟩ := hs
  exact .refl _

theorem headState (hs : SameStates h g) : g.headState = h.headState := by
  rw [← g.stateBehind_zero, hs.stateBehind, h.stateBehind_zero]

/-- The states and the place of the cursor are all there is to a history. -/
theorem eq (hs : SameStates h g) (hb : g.behind = h.behind) : g = h := by
  have hc : g.current = h.current := by
    rw [← (g.slotBehind_iff_current g.behind_lt_capacity).mpr rfl,
      ← (h.slotBehind_iff_current h.behind_lt_capacity).mpr rfl, hb, hs.slotBehind]
  cases h
  cases g
  obtain ⟨rfl, rfl, rfl⟩ := hs
  cases hc
  rfl

end SameStates

theorem stepForward?_eq_none_iff (h : History α) : h.stepForward? = none ↔ h.behind = 0 := by
  have hr := h.isReplaying_iff
  unfold stepForward?
  split <;> simp_all

theorem stepForward?_eq_some {h g : History α} (hg : h.stepForward? = some g) :
    SameStates h g ∧ h.behind ≠ 0 ∧ g.behind = h.behind - 1 := by
  have hb : h.behind ≠ 0 := by
    intro hb
    rw [h.stepForward?_eq_none_iff.mpr hb] at hg
    cases hg
  have hlt := h.behind_lt_capacity
  have hcurrent : h.after h.current = h.slotBehind (h.behind - 1) := by
    rw [← h.after_slotBehind (by omega), Nat.sub_add_cancel (by omega),
      (h.slotBehind_iff_current hlt).mpr rfl]
  simp only [stepForward?, h.isReplaying_iff.mpr hb, ↓reduceIte, Option.some.injEq] at hg
  subst hg
  have hs : SameStates h
      { h with current := h.after h.current, current_lt := h.after_lt _ } := ⟨rfl, rfl, rfl⟩
  exact ⟨hs, hb, hs.behind_of_current (by omega) hcurrent⟩

theorem stepBack?_eq_none_iff (h : History α) : h.stepBack? = none ↔ h.depth ≤ h.behind := by
  unfold stepBack?
  split <;> simp_all

theorem stepBack?_eq_some {h g : History α} (hg : h.stepBack? = some g) :
    SameStates h g ∧ h.behind < h.depth ∧ g.behind = h.behind + 1 := by
  have hb : ¬ h.depth ≤ h.behind := by
    intro hb
    rw [h.stepBack?_eq_none_iff.mpr hb] at hg
    cases hg
  have hlt := h.depth_lt_capacity
  have hcurrent : h.before h.current = h.slotBehind (h.behind + 1) := by
    rw [← h.before_slotBehind (by omega), (h.slotBehind_iff_current h.behind_lt_capacity).mpr rfl]
  simp only [stepBack?, hb, ↓reduceIte, Option.some.injEq] at hg
  subst hg
  have hs : SameStates h
      { h with current := h.before h.current, current_lt := h.before_lt _ } := ⟨rfl, rfl, rfl⟩
  exact ⟨hs, by omega, hs.behind_of_current (by omega) hcurrent⟩

theorem sameStates_forward (h : History α) : SameStates h (h.perform .forward).2 := by
  simp only [perform]
  cases hf : h.stepForward? with
  | none => exact .refl h
  | some g => exact (stepForward?_eq_some hf).1

theorem sameStates_back (h : History α) : SameStates h (h.perform .back).2 := by
  simp only [perform]
  cases hb : h.stepBack? with
  | none => exact .refl h
  | some g => exact (stepBack?_eq_some hb).1

theorem behind_forward (h : History α) : (h.perform .forward).2.behind = h.behind - 1 := by
  simp only [perform]
  cases hf : h.stepForward? with
  | none =>
    have hb := h.stepForward?_eq_none_iff.mp hf
    simp only [hb]
  | some g => exact (stepForward?_eq_some hf).2.2

theorem timeline_stepForward? (h : History α) :
    h.stepForward?.map timeline = h.timeline.stepForward? := by
  unfold Timeline.stepForward?
  cases hg : h.stepForward? with
  | none =>
    have hb := h.stepForward?_eq_none_iff.mp hg
    simp [timeline, hb]
  | some g =>
    obtain ⟨hs, hb, hbehind⟩ := stepForward?_eq_some hg
    simp [timeline, hb, hs.states, hbehind, hs.commits]

theorem timeline_stepBack? (h : History α) :
    h.stepBack?.map timeline = h.timeline.stepBack? := by
  unfold Timeline.stepBack?
  cases hg : h.stepBack? with
  | none =>
    have hb := h.stepBack?_eq_none_iff.mp hg
    simp [timeline, Nat.not_lt.mpr hb]
  | some g =>
    obtain ⟨hs, hb, hbehind⟩ := stepBack?_eq_some hg
    simp [timeline, hb, hs.states, hbehind, hs.commits]

/-- Each operation does to the ring what it does to the list. -/
theorem timeline_perform (h : History α) (op : Operation α) :
    (h.perform op).1 = (h.timeline.perform h.capacity op).1 ∧
      (h.perform op).2.timeline = (h.timeline.perform h.capacity op).2 := by
  cases op with
  | commit state => exact ⟨rfl, h.timeline_commit state⟩
  | back =>
    simp only [perform, Timeline.perform, ← h.timeline_stepBack?]
    cases h.stepBack? <;> exact ⟨rfl, rfl⟩
  | forward =>
    simp only [perform, Timeline.perform, ← h.timeline_stepForward?]
    cases h.stepForward? <;> exact ⟨rfl, rfl⟩
  | edit f => exact ⟨rfl, h.timeline_modifyCurrent f⟩
  | reset initial => exact ⟨rfl, h.timeline_reset initial⟩

theorem capacity_perform (h : History α) (op : Operation α) :
    (h.perform op).2.capacity = h.capacity := by
  cases op with
  | commit state => exact h.capacity_commit state
  | back => exact h.sameStates_back.capacity
  | forward => exact h.sameStates_forward.capacity
  | edit f => exact h.capacity_modifyCurrent f
  | reset initial => exact h.capacity_reset initial

/-- The second history went on from the first: it may have recorded more, but what it still holds of
the first is as it was. -/
structure Extends (h g : History α) : Prop where
  capacity : g.capacity = h.capacity
  commits_le : h.commits ≤ g.commits
  kept : ∀ k, k + (g.commits - h.commits) < h.capacity →
    g.stateBehind (k + (g.commits - h.commits)) = h.stateBehind k

theorem Extends.refl (h : History α) : Extends h h :=
  ⟨rfl, Nat.le_refl _, fun k _ => by rw [Nat.sub_self, Nat.add_zero]⟩

theorem Extends.trans {f : History α} (hg : Extends h g) (hf : Extends g f) : Extends h f := by
  have hle := hg.commits_le
  have hle' := hf.commits_le
  refine ⟨hf.capacity.trans hg.capacity, Nat.le_trans hle hle', ?_⟩
  intro k hk
  have hsum : k + (f.commits - h.commits) =
      k + (g.commits - h.commits) + (f.commits - g.commits) := by omega
  rw [hsum] at hk ⊢
  rw [hf.kept _ (hg.capacity ▸ hk), hg.kept k (by omega)]

theorem Extends.commit (h : History α) (state : α) : Extends h (h.commit state) := by
  have hone : (h.commit state).commits - h.commits = 1 := Nat.add_sub_cancel_left h.commits 1
  refine ⟨h.capacity_commit state, Nat.le_add_right _ 1, ?_⟩
  intro k hk
  rw [hone] at hk ⊢
  exact h.stateBehind_commit state hk

end History

end Chip8
