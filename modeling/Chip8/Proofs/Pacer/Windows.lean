import Mathlib
import Chip8.Proofs.Pacer

namespace Chip8.Pacer

/-- A frame as it is recorded. -/
structure Call where
  now : Nat
  cycles : UInt32
  deriving DecidableEq, Repr

def recordAll (p : Pacer) (calls : List Call) : Except PacerError Pacer :=
  calls.foldlM (fun p c => p.record c.now c.cycles) p

/-- The cycles of calls taken together, in unbounded numbers. -/
def cyclesIn (calls : List Call) : Nat := (calls.map fun c => c.cycles.toNat).sum

@[simp]
theorem cyclesIn_nil : cyclesIn [] = 0 := rfl

@[simp]
theorem cyclesIn_cons (c : Call) (calls : List Call) :
    cyclesIn (c :: calls) = c.cycles.toNat + cyclesIn calls := rfl

@[simp]
theorem cyclesIn_append (xs ys : List Call) : cyclesIn (xs ++ ys) = cyclesIn xs + cyclesIn ys := by
  simp [cyclesIn]

/-- Calls divided into windows, from the instant at which the first one starts. A window ends with
the first call that comes a second or more after its start, and there the next one starts. The calls
of the window that has not ended come last. -/
inductive Divided : Nat → List Call → List (List Call) → List Call → Prop
  | ongoing {start : Nat} {rest : List Call} (early : ∀ c ∈ rest, c.now < start + second) :
      Divided start rest [] rest
  | ended {start : Nat} (front : List Call) {last : Call} {calls : List Call}
      {full : List (List Call)} {rest : List Call} (early : ∀ c ∈ front, c.now < start + second)
      (late : start + second ≤ last.now) (next : Divided last.now calls full rest) :
      Divided start (front ++ last :: calls) ((front ++ [last]) :: full) rest

namespace Divided

variable {start : Nat} {calls : List Call} {full : List (List Call)} {rest : List Call}

/-- Each call is in one window, in its turn. -/
theorem flatten (h : Divided start calls full rest) : full.flatten ++ rest = calls := by
  induction h with
  | ongoing early => rfl
  | ended front early late next ih => simp [ih]

theorem exists_of_calls (start : Nat) (calls : List Call) :
    ∃ full rest, Divided start calls full rest := by
  induction calls generalizing start with
  | nil => exact ⟨[], [], .ongoing nofun⟩
  | cons c calls ih =>
    rcases Nat.lt_or_ge c.now (start + second) with hearly | hlate
    · obtain ⟨full, rest, h⟩ := ih start
      cases h with
      | ongoing early => exact ⟨[], c :: calls, .ongoing (List.forall_mem_cons.mpr ⟨hearly, early⟩)⟩
      | @ended _ front last later full _ early late next =>
        have hfront : ∀ d ∈ c :: front, d.now < start + second :=
          List.forall_mem_cons.mpr ⟨hearly, early⟩
        exact ⟨_, _, .ended (c :: front) hfront late next⟩
    · obtain ⟨full, rest, h⟩ := ih c.now
      exact ⟨_, _, .ended [] nofun hlate h⟩

/-- The first call that is late tells where a window ends. -/
theorem front_unique {front front' later later' : List Call} {last last' : Call}
    (early : ∀ c ∈ front, c.now < start + second) (late : start + second ≤ last.now)
    (early' : ∀ c ∈ front', c.now < start + second) (late' : start + second ≤ last'.now)
    (h : front ++ last :: later = front' ++ last' :: later') :
    front = front' ∧ last = last' ∧ later = later' := by
  induction front generalizing front' with
  | nil =>
    cases front' with
    | nil => simpa using h
    | cons c front' =>
      cases h
      exact absurd (early' _ List.mem_cons_self) (Nat.not_lt.mpr late)
  | cons c front ih =>
    cases front' with
    | nil =>
      cases h
      exact absurd (early _ List.mem_cons_self) (Nat.not_lt.mpr late')
    | cons c' front' =>
      obtain ⟨rfl, hrest⟩ := List.cons.inj h
      obtain ⟨rfl, hlast⟩ := ih (fun d hd => early d (List.mem_cons_of_mem _ hd))
        (fun d hd => early' d (List.mem_cons_of_mem _ hd)) hrest
      exact ⟨rfl, hlast⟩

theorem unique {full' : List (List Call)} {rest' : List Call} (h : Divided start calls full rest)
    (h' : Divided start calls full' rest') : full' = full ∧ rest' = rest := by
  induction h generalizing full' rest' with
  | @ongoing start rest early =>
    cases h' with
    | ongoing => exact ⟨rfl, rfl⟩
    | @ended _ front last _ _ _ _ late _ =>
      exact absurd (early last (by simp)) (Nat.not_lt.mpr late)
  | @ended start front last later full rest early late next ih =>
    generalize hcalls : front ++ last :: later = calls' at h'
    cases h' with
    | ongoing early' =>
      subst hcalls
      exact absurd (early' last (by simp)) (Nat.not_lt.mpr late)
    | ended _ early' late' next' =>
      obtain ⟨rfl, rfl, rfl⟩ := front_unique early late early' late' hcalls
      obtain ⟨rfl, rfl⟩ := ih next'
      exact ⟨rfl, rfl⟩

/-- One more call ends the window that is going on, or goes into it. -/
theorem concat (h : Divided start calls full rest) (c : Call) :
    Divided start (calls ++ [c]) full (rest ++ [c]) ∨
      Divided start (calls ++ [c]) (full ++ [rest ++ [c]]) [] := by
  induction h with
  | @ongoing start rest early =>
    rcases Nat.lt_or_ge c.now (start + second) with hearly | hlate
    · refine .inl (.ongoing ?_)
      intro d hd
      rcases List.mem_append.mp hd with hd | hd
      · exact early d hd
      · exact (List.mem_singleton.mp hd) ▸ hearly
    · exact .inr (.ended rest early hlate (.ongoing nofun))
  | @ended start front last later full rest early late next ih =>
    rw [List.append_assoc, List.cons_append]
    exact ih.imp (.ended front early late) (.ended front early late)

/-- The windows that the first calls complete are windows of them all. -/
theorem before {past later : List Call} (h : Divided start (past ++ later) full rest) :
    ∃ full' rest', Divided start past full' rest' ∧ full' <+: full := by
  induction later generalizing past with
  | nil =>
    rw [List.append_nil] at h
    exact ⟨full, rest, h, List.prefix_rfl⟩
  | cons c later ih =>
    rw [← List.singleton_append, ← List.append_assoc] at h
    obtain ⟨full₁, rest₁, h₁, hinit⟩ := ih h
    obtain ⟨full₂, rest₂, h₂⟩ := exists_of_calls start past
    refine ⟨full₂, rest₂, h₂, ?_⟩
    rcases h₂.concat c with hnext | hnext
    · obtain ⟨rfl, rfl⟩ := hnext.unique h₁
      exact hinit
    · obtain ⟨rfl, rfl⟩ := hnext.unique h₁
      exact (List.prefix_append _ _).trans hinit

end Divided

theorem recordAll_cons (p : Pacer) (c : Call) (calls : List Call) :
    p.recordAll (c :: calls) = p.record c.now c.cycles >>= fun q => q.recordAll calls := rfl

theorem recordAll_append (p : Pacer) (xs ys : List Call) :
    p.recordAll (xs ++ ys) = p.recordAll xs >>= fun q => q.recordAll ys := List.foldlM_append

theorem recordAll_append_ok {p q : Pacer} {xs : List Call} (h : p.recordAll xs = .ok q)
    (ys : List Call) : p.recordAll (xs ++ ys) = q.recordAll ys := by
  rw [recordAll_append, h]
  rfl

/-- Neither counter of a window overflows. -/
def Fits (w : List Call) : Prop := cyclesIn w < UInt32.size ∧ w.length < UInt32.size

instance (w : List Call) : Decidable (Fits w) := inferInstanceAs (Decidable (_ ∧ _))

theorem Fits.front {w later : List Call} (h : Fits (w ++ later)) : Fits w := by
  obtain ⟨hcycles, hlength⟩ := h
  rw [cyclesIn_append] at hcycles
  rw [List.length_append] at hlength
  exact ⟨Nat.lt_of_add_right_lt hcycles, Nat.lt_of_add_right_lt hlength⟩

theorem cyclesIn_flatten (ws : List (List Call)) :
    cyclesIn ws.flatten = (ws.map cyclesIn).sum := by
  induction ws with
  | nil => rfl
  | cons w ws ih => simp [ih]

/-- The counters hold the calls of a window so far. -/
structure Counts (p : Pacer) (start : Nat) (w : List Call) : Prop where
  windowStart : p.windowStart = start
  windowCycles : p.windowCycles.toNat = cyclesIn w
  windowFrames : p.windowFrames.toNat = w.length

theorem counts_start (hz fps : UInt32) (now : Nat) : (start hz fps now).Counts now [] :=
  ⟨rfl, rfl, rfl⟩

/-- What is measured of the last of some windows, if there is one. -/
def lastRates (full : List (List Call)) : Option (Nat × Nat) :=
  full.getLast?.map fun w => (cyclesIn w, w.length)

/-- The measured rates, in unbounded numbers. -/
def rates (p : Pacer) : Nat × Nat := (p.measuredHz.toNat, p.measuredFps.toNat)

namespace Counts

variable {p : Pacer} {start : Nat} {w : List Call} {c : Call}

theorem fits (h : p.Counts start w) : Fits w := by
  unfold Fits
  rw [← h.windowCycles, ← h.windowFrames]
  exact ⟨p.windowCycles.toNat_lt, p.windowFrames.toNat_lt⟩

theorem takes_iff (h : p.Counts start w) : p.Takes c.cycles ↔ Fits (w ++ [c]) := by
  simp [Takes, Fits, h.windowCycles, h.windowFrames]

/-- What the counters become by a call that they can hold. -/
theorem toNat_add (h : p.Counts start w) (htakes : p.Takes c.cycles) :
    (p.windowCycles + c.cycles).toNat = cyclesIn (w ++ [c]) ∧
      (p.windowFrames + 1).toNat = (w ++ [c]).length := by
  obtain ⟨hcycles, hframes⟩ := htakes.toNat_add
  rw [hcycles, hframes, h.windowCycles, h.windowFrames]
  simp

theorem early (h : p.Counts start w) (htakes : p.Takes c.cycles)
    (hearly : c.now < start + second) :
    ∃ q, p.record c.now c.cycles = .ok q ∧ q.Counts start (w ++ [c]) ∧ q.rates = p.rates := by
  obtain ⟨hcycles, hframes⟩ := h.toNat_add htakes
  rw [← h.windowStart] at hearly
  exact ⟨_, record_early htakes hearly, ⟨h.windowStart, hcycles, hframes⟩, rfl⟩

theorem late (h : p.Counts start w) (htakes : p.Takes c.cycles) (hlate : start + second ≤ c.now) :
    ∃ q, p.record c.now c.cycles = .ok q ∧ q.Counts c.now [] ∧
      q.rates = (cyclesIn (w ++ [c]), (w ++ [c]).length) := by
  obtain ⟨hcycles, hframes⟩ := h.toNat_add htakes
  rw [← h.windowStart] at hlate
  exact ⟨_, record_late htakes hlate, ⟨rfl, rfl, rfl⟩, Prod.ext hcycles hframes⟩

/-- Calls that all go into one window are counted, unless they overflow it. -/
theorem all_early (h : p.Counts start w) {calls : List Call}
    (early : ∀ c ∈ calls, c.now < start + second) :
    (∃ q, p.recordAll calls = .ok q ∧ q.Counts start (w ++ calls) ∧ q.rates = p.rates) ∨
      p.recordAll calls = .error .overflow ∧ ¬ Fits (w ++ calls) := by
  induction calls generalizing p w with
  | nil =>
    rw [List.append_nil]
    exact .inl ⟨p, rfl, h, rfl⟩
  | cons c calls ih =>
    obtain ⟨hc, hcalls⟩ := List.forall_mem_cons.mp early
    rw [recordAll_cons, ← List.singleton_append, ← List.append_assoc]
    by_cases htakes : p.Takes c.cycles
    · obtain ⟨q, hq, hcounts, hrates⟩ := h.early htakes hc
      rw [hq, ← hrates]
      exact ih hcounts hcalls
    · rw [record_overflow htakes]
      exact .inr ⟨rfl, fun hfits => htakes (h.takes_iff.mpr hfits.front)⟩

end Counts

/-- Where all windows fit, the counters hold the window that is going on, and the measured rates are
those of the last one that ended. Where one of them does not, it overflows a counter. -/
theorem recordAll_divided {p : Pacer} {start : Nat} {calls : List Call} {full : List (List Call)}
    {rest : List Call} (h : Divided start calls full rest) (hp : p.Counts start []) :
    (∃ q since, p.recordAll calls = .ok q ∧ (∀ w ∈ full ++ [rest], Fits w) ∧ q.Counts since rest ∧
        q.rates = (lastRates full).getD p.rates) ∨
      p.recordAll calls = .error .overflow ∧ ∃ w ∈ full ++ [rest], ¬ Fits w := by
  induction h generalizing p with
  | @ongoing start rest early =>
    rcases hp.all_early early with ⟨q, hq, hcounts, hrates⟩ | ⟨hoverflow, hnot⟩
    · exact .inl ⟨q, start, hq, by simpa using hcounts.fits, hcounts, hrates⟩
    · exact .inr ⟨hoverflow, rest, by simp, hnot⟩
  | @ended start front last calls full rest early late next ih =>
    rcases hp.all_early early with ⟨q, hq, hcounts, -⟩ | ⟨hoverflow, hnot⟩
    · rw [recordAll_append_ok hq]
      have htakes : q.Takes last.cycles ↔ Fits (front ++ [last]) := hcounts.takes_iff
      by_cases hfits : Fits (front ++ [last])
      · obtain ⟨q', hq', hcounts', hrates'⟩ := hcounts.late (htakes.mpr hfits) late
        rw [recordAll_cons, hq']
        rcases ih hcounts' with ⟨r, since, hr, hall, hcounts, hrates⟩ | ⟨hoverflow, w, hw, hnot⟩
        · refine .inl ⟨r, since, hr, List.forall_mem_cons.mpr ⟨hfits, hall⟩, hcounts, ?_⟩
          rw [hrates, hrates', lastRates, lastRates, List.getLast?_cons]
          cases full.getLast? <;> rfl
        · exact .inr ⟨hoverflow, w, List.mem_cons_of_mem _ hw, hnot⟩
      · refine .inr ⟨?_, front ++ [last], by simp, hfits⟩
        rw [recordAll_cons, record_overflow (mt htakes.mp hfits)]
        rfl
    · rw [recordAll_append, hoverflow]
      exact .inr ⟨rfl, front ++ [last], by simp, mt Fits.front hnot⟩

/-- Calls can be recorded if and only if all their windows fit. -/
theorem recordAll_eq_ok_iff {p : Pacer} {start : Nat} {calls : List Call} {full : List (List Call)}
    {rest : List Call} (h : Divided start calls full rest) (hp : p.Counts start []) :
    (∃ q, p.recordAll calls = .ok q) ↔ ∀ w ∈ full ++ [rest], Fits w := by
  rcases recordAll_divided h hp with ⟨q, -, hq, hall, -⟩ | ⟨hoverflow, w, hw, hnot⟩
  · exact ⟨fun _ => hall, fun _ => ⟨q, hq⟩⟩
  · rw [hoverflow]
    exact ⟨nofun, fun hall => absurd (hall w hw) hnot⟩

/-- A pacer that has recorded calls tells the truth about them. -/
theorem counts_of_recordAll {p q : Pacer} {start : Nat} {calls : List Call}
    {full : List (List Call)} {rest : List Call} (h : Divided start calls full rest)
    (hp : p.Counts start []) (hq : p.recordAll calls = .ok q) :
    (∃ since, q.Counts since rest) ∧ q.rates = (lastRates full).getD p.rates := by
  rcases recordAll_divided h hp with ⟨r, since, hr, -, hcounts, hrates⟩ | ⟨hoverflow, -⟩
  · cases hr.symm.trans hq
    exact ⟨⟨since, hcounts⟩, hrates⟩
  · cases hoverflow.symm.trans hq

/-- The first calls of some that can be recorded can be recorded. -/
theorem recordAll_front {p q : Pacer} {past later : List Call}
    (h : p.recordAll (past ++ later) = .ok q) : ∃ r, p.recordAll past = .ok r := by
  rw [recordAll_append] at h
  cases hpast : p.recordAll past with
  | ok r => exact ⟨r, rfl⟩
  | error e =>
    rw [hpast] at h
    cases h

/-- The recorded frames fall into windows in exactly one way, each frame into one, and they can be
recorded if and only if the counters can hold each window. Then the measured rates are after every
call the cycles and the frames of the last window that ended, and no cycle is lost between the
windows and the counter. -/
theorem measured_rates_are_of_last_window (hz fps : UInt32) (now : Nat) (calls : List Call) :
    ∃ full rest, Divided now calls full rest ∧
      (∀ full' rest', Divided now calls full' rest' → full' = full ∧ rest' = rest) ∧
      full.flatten ++ rest = calls ∧
      ((∃ p, (start hz fps now).recordAll calls = .ok p) ↔ ∀ w ∈ full ++ [rest], Fits w) ∧
      ((∀ w ∈ full ++ [rest], Fits w) → ∀ past later, calls = past ++ later →
        ∃ p full' rest', (start hz fps now).recordAll past = .ok p ∧
          Divided now past full' rest' ∧ full' <+: full ∧
          (p.measuredHz.toNat, p.measuredFps.toNat) =
              (full'.getLast?.map fun w => (cyclesIn w, w.length)).getD (0, 0) ∧
            (full'.map cyclesIn).sum + p.windowCycles.toNat = cyclesIn past ∧
            (full'.map List.length).sum + p.windowFrames.toNat = past.length) := by
  have hstart := counts_start hz fps now
  obtain ⟨full, rest, h⟩ := Divided.exists_of_calls now calls
  refine ⟨full, rest, h, fun _ _ => h.unique, h.flatten, recordAll_eq_ok_iff h hstart, ?_⟩
  rintro hfits past later rfl
  obtain ⟨q, hq⟩ := (recordAll_eq_ok_iff h hstart).mpr hfits
  obtain ⟨p, hp⟩ := recordAll_front hq
  obtain ⟨full', rest', h', hinit⟩ := h.before
  obtain ⟨⟨since, hcounts⟩, hrates⟩ := counts_of_recordAll h' hstart hp
  have hpast := h'.flatten
  refine ⟨p, full', rest', hp, h', hinit, hrates, ?_, ?_⟩
  · rw [hcounts.windowCycles, ← cyclesIn_flatten, ← cyclesIn_append, hpast]
  · rw [hcounts.windowFrames, ← List.length_flatten, ← List.length_append, hpast]

/-- Two windows that are complete, with a clock that goes backward in the first and stands still at
the start of the second, and a third that has begun. -/
theorem windows_of_an_uneven_clock :
    let one : List Call := [⟨4000000000, 3⟩, ⟨5999999999, 4⟩, ⟨6000000000, 5⟩]
    let two : List Call := [⟨6000000000, 6⟩, ⟨9000000000, 7⟩]
    let three : List Call := [⟨0, 8⟩]
    Divided 5000000000 (one ++ two ++ three) [one, two] three ∧
      (∀ w ∈ [one, two, three], Fits w) ∧
      ∃ p, (start 500 60 5000000000).recordAll (one ++ two ++ three) = .ok p ∧
        (p.measuredHz.toNat, p.measuredFps.toNat) = (13, 2) ∧
        ([one, two].map cyclesIn).sum + p.windowCycles.toNat = 33 := by
  intro one two three
  have hdivided : Divided 5000000000 (one ++ two ++ three) [one, two] three :=
    .ended [⟨4000000000, 3⟩, ⟨5999999999, 4⟩] (by decide) (by decide)
      (.ended [⟨6000000000, 6⟩] (by decide) (by decide) (.ongoing (by decide)))
  have hfits : ∀ w ∈ [one, two] ++ [three], Fits w := by decide
  obtain ⟨full, rest, -, hunique, -, -, hrates⟩ :=
    measured_rates_are_of_last_window 500 60 5000000000 (one ++ two ++ three)
  obtain ⟨rfl, rfl⟩ := hunique _ _ hdivided
  obtain ⟨p, full, rest, hp, h, -, hmeasured, hsum, -⟩ :=
    hrates hfits _ [] (List.append_nil _).symm
  obtain ⟨rfl, rfl⟩ := hdivided.unique h
  exact ⟨hdivided, hfits, p, hp, hmeasured, hsum⟩

end Chip8.Pacer
