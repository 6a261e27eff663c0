namespace Chip8

variable {σ τ ι ρ : Type}

/-- The answers to a list of operations and the state after the last of them. -/
def runAll (step : σ → ι → ρ × σ) (s : σ) : List ι → List ρ × σ
  | [] => ([], s)
  | op :: rest =>
    let (answer, s) := step s op
    let (answers, s) := runAll step s rest
    (answer :: answers, s)

theorem runAll_cons (step : σ → ι → ρ × σ) (s : σ) (op : ι) (rest : List ι) :
    runAll step s (op :: rest) =
      ((step s op).1 :: (runAll step (step s op).2 rest).1,
        (runAll step (step s op).2 rest).2) := rfl

theorem runAll_append (step : σ → ι → ρ × σ) (s : σ) (xs ys : List ι) :
    runAll step s (xs ++ ys) =
      ((runAll step s xs).1 ++ (runAll step (runAll step s xs).2 ys).1,
        (runAll step (runAll step s xs).2 ys).2) := by
  induction xs generalizing s with
  | nil => rfl
  | cons op xs ih => simp only [List.cons_append, runAll_cons, ih]

/-- An invariant of the single operations of a run is one of the run. -/
theorem runAll_invariant {step : σ → ι → ρ × σ} {P : σ → Prop} {ops : List ι}
    (hstep : ∀ s, ∀ op ∈ ops, P s → P (step s op).2) {s : σ} (hs : P s) :
    P (runAll step s ops).2 := by
  induction ops generalizing s with
  | nil => exact hs
  | cons op ops ih =>
    rw [runAll_cons]
    apply ih
    · intro s later hlater
      exact hstep s later (List.mem_cons_of_mem op hlater)
    · exact hstep s op List.mem_cons_self hs

/-- Two systems that stay related under each operation, and answer it alike, cannot be told apart by
any run. -/
theorem runAll_related {f : σ → ι → ρ × σ} {g : τ → ι → ρ × τ} {R : σ → τ → Prop}
    (hstep : ∀ s t op, R s t → (f s op).1 = (g t op).1 ∧ R (f s op).2 (g t op).2)
    {s : σ} {t : τ} (h : R s t) (ops : List ι) :
    (runAll f s ops).1 = (runAll g t ops).1 ∧ R (runAll f s ops).2 (runAll g t ops).2 := by
  induction ops generalizing s t with
  | nil => exact ⟨rfl, h⟩
  | cons op ops ih =>
    obtain ⟨hanswer, hnext⟩ := hstep s t op h
    obtain ⟨hanswers, hend⟩ := ih hnext
    simp only [runAll_cons]
    exact ⟨by rw [hanswer, hanswers], hend⟩

end Chip8
