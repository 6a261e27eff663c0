import Chip8.Files.Tree

namespace Chip8

namespace FileTree

/-- Where a path starts. -/
def startOf (t : FileTree) (p : Path) : Location := if p.absolute then [] else t.home

/-- Where a path leads, provided that it goes on from directories only. -/
def destination (t : FileTree) (p : Path) : Location := p.steps.foldl enter (t.startOf p)

/-- The path comes by the location, or ends there. -/
def OnWay (t : FileTree) (p : Path) (l : Location) : Prop :=
  ∃ steps, steps <+: p.steps ∧ l = steps.foldl enter (t.startOf p)

theorem eq_of_walk {t : FileTree} {here l : Location} {steps : List String}
    (h : t.walk here steps = .ok l) : l = steps.foldl enter here := by
  induction steps generalizing here with
  | nil =>
    cases h
    rfl
  | cons step rest ih =>
    rw [walk] at h
    split at h
    · exact ih h
    · cases h
    · cases h

theorem locate_eq_ok {t : FileTree} {p : Path} {l : Location} (h : t.locate p = .ok l) :
    l = t.destination p := by
  unfold locate at h
  split at h
  · cases h
  · exact eq_of_walk h

theorem read_eq_ok {t : FileTree} {p : Path} {bytes : List UInt8} (h : t.read p = .ok bytes) :
    t.locate p = .ok (t.destination p) ∧ t.lookup (t.destination p) = some (.file bytes) ∧
      p.trailingSlash = false := by
  unfold read at h
  split at h
  · cases h
  · rename_i l hl
    rw [hl, ← locate_eq_ok hl]
    split at h
    · cases h
    · cases h
    · rename_i hfile
      split at h
      · cases h
      · rename_i hslash
        cases h
        exact ⟨rfl, hfile, Bool.eq_false_iff.mpr hslash⟩

theorem read_of_file {t : FileTree} {p : Path} {bytes : List UInt8}
    (hl : t.locate p = .ok (t.destination p))
    (hfile : t.lookup (t.destination p) = some (.file bytes)) (hslash : p.trailingSlash = false) :
    t.read p = .ok bytes := by
  simp only [read, hl, hfile, hslash, Bool.false_eq_true, ↓reduceIte]

theorem lookup_without {l l' : Location} (h : l' ≠ l) (entries : List (Location × Entry)) :
    (entries.filter fun other => other.1 != l).lookup l' = entries.lookup l' := by
  induction entries with
  | nil => rfl
  | cons first rest ih =>
    obtain ⟨place, e⟩ := first
    by_cases hfirst : place = l
    · have hother : (l' == place) = false := beq_eq_false_iff_ne.mpr (hfirst ▸ h)
      rw [List.filter_cons_of_neg (by simp [hfirst]), ih, List.lookup_cons, hother]
    · rw [List.filter_cons_of_pos (by simp [hfirst]), List.lookup_cons, List.lookup_cons, ih]

theorem lookup_put (t : FileTree) {l : Location} (hl : t.lookup l ≠ some .directory) (e : Entry)
    (l' : Location) : (t.put l e).lookup l' = if l' = l then some e else t.lookup l' := by
  have hroot : l ≠ [] := fun h => hl (by rw [h]; rfl)
  unfold lookup put
  by_cases heq : l' = l
  · subst heq
    rw [if_neg hroot, if_pos rfl]
    simp
  · rw [if_neg heq]
    congr 1
    have hother : (l' == l) = false := beq_eq_false_iff_ne.mpr heq
    rw [List.lookup_cons, hother]
    exact lookup_without heq t.entries

/-- What one can go by in the first tree, one can go by in the second. -/
structure Keeps (t t' : FileTree) : Prop where
  home : t'.home = t.home
  directory : ∀ l, t.lookup l = some .directory → t'.lookup l = some .directory

namespace Keeps

variable {t t' : FileTree}

theorem startOf (h : Keeps t t') (p : Path) : t'.startOf p = t.startOf p := by
  rw [FileTree.startOf, FileTree.startOf, h.home]

theorem destination (h : Keeps t t') (p : Path) : t'.destination p = t.destination p := by
  rw [FileTree.destination, FileTree.destination, h.startOf]

theorem walk (h : Keeps t t') {here l : Location} {steps : List String}
    (hl : t.walk here steps = .ok l) : t'.walk here steps = .ok l := by
  induction steps generalizing here with
  | nil => exact hl
  | cons step rest ih =>
    rw [FileTree.walk] at hl ⊢
    split at hl
    · rename_i hdirectory
      rw [h.directory here hdirectory]
      exact ih hl
    · cases hl
    · cases hl

theorem locate (h : Keeps t t') {p : Path} {l : Location} (hl : t.locate p = .ok l) :
    t'.locate p = .ok l := by
  unfold FileTree.locate at hl ⊢
  split at hl
  · cases hl
  · rename_i hp
    rw [if_neg hp, h.home]
    exact h.walk hl

/-- A path that leads to a file still leads there. -/
theorem read (h : Keeps t t') {p : Path} {bytes bytes' : List UInt8} (hp : t.read p = .ok bytes)
    (hfile : t'.lookup (t.destination p) = some (.file bytes')) : t'.read p = .ok bytes' := by
  obtain ⟨hl, -, hslash⟩ := read_eq_ok hp
  rw [← h.destination] at hl hfile
  exact read_of_file (h.locate hl) hfile hslash

end Keeps

/-- No file is gone, none is new, and all hold what they held. -/
def SameFiles (t t' : FileTree) : Prop :=
  ∀ l bytes, t'.lookup l = some (.file bytes) ↔ t.lookup l = some (.file bytes)

/-- The second tree has new directories at most, all of them on the way of the path. -/
structure Furnished (p : Path) (t t' : FileTree) : Prop where
  home : t'.home = t.home
  entry : ∀ l, t'.lookup l = t.lookup l ∨
    t.OnWay p l ∧ t.lookup l = none ∧ t'.lookup l = some .directory

namespace Furnished

variable {p : Path} {t t' : FileTree}

theorem refl (p : Path) (t : FileTree) : Furnished p t t := ⟨rfl, fun _ => .inl rfl⟩

theorem keeps (h : Furnished p t t') : Keeps t t' := by
  refine ⟨h.home, ?_⟩
  intro l hl
  rcases h.entry l with hsame | ⟨-, hnone, -⟩
  · rw [hsame, hl]
  · rw [hl] at hnone
    cases hnone

theorem onWay (h : Furnished p t t') (l : Location) : t'.OnWay p l ↔ t.OnWay p l := by
  rw [OnWay, OnWay, h.keeps.startOf]

theorem trans {u : FileTree} (h : Furnished p t t') (h' : Furnished p t' u) : Furnished p t u := by
  refine ⟨h'.home.trans h.home, ?_⟩
  intro l
  rcases h'.entry l with hsame' | ⟨hway, hnone, hnew⟩
  · rw [hsame']
    exact h.entry l
  · right
    rcases h.entry l with hsame | ⟨-, -, hmade⟩
    · exact ⟨(h.onWay l).mp hway, hsame ▸ hnone, hnew⟩
    · rw [hnone] at hmade
      cases hmade

theorem sameFiles (h : Furnished p t t') : t.SameFiles t' := by
  intro l bytes
  rcases h.entry l with hsame | ⟨-, hnone, hnew⟩
  · rw [hsame]
  · rw [hnone, hnew]
    exact ⟨nofun, nofun⟩

theorem read (h : Furnished p t t') {q : Path} {bytes : List UInt8} (hq : t.read q = .ok bytes) :
    t'.read q = .ok bytes :=
  h.keeps.read hq ((h.sameFiles _ bytes).mpr (read_eq_ok hq).2.1)

theorem makeDirectory {steps : List String} (hsteps : steps <+: p.steps) {slash : Bool}
    (h : t.makeDirectory ⟨p.absolute, steps, slash⟩ = .ok t') : Furnished p t t' := by
  unfold FileTree.makeDirectory at h
  split at h
  · cases h
  · rename_i l hl
    split at h
    · cases h
    · rename_i hnone
      cases h
      rw [Option.not_isSome_iff_eq_none] at hnone
      refine ⟨rfl, ?_⟩
      intro l'
      rw [lookup_put t (by rw [hnone]; nofun)]
      split
      · rename_i heq
        exact .inr ⟨⟨steps, hsteps, heq.trans (locate_eq_ok hl)⟩, heq ▸ hnone, rfl⟩
      · exact .inl rfl

theorem ensureDirectory (t : FileTree) {steps : List String} (hsteps : steps <+: p.steps)
    (slash : Bool) : Furnished p t (t.ensureDirectory ⟨p.absolute, steps, slash⟩).2 := by
  unfold FileTree.ensureDirectory
  split
  · rename_i hmade
    exact makeDirectory hsteps hmade
  · exact refl p t

/-- The directories are made from the outermost one on, so what is left when one cannot be made is
a part of the way too. -/
theorem makeSteps (t : FileTree) {steps : List String} (hsteps : steps.reverse <+: p.steps) :
    Furnished p t (t.makeSteps p.absolute steps).2 := by
  induction steps generalizing t with
  | nil => exact refl p t
  | cons step above ih =>
    have habove : above.reverse <+: p.steps := by
      rw [List.reverse_cons] at hsteps
      exact (List.prefix_append _ _).trans hsteps
    unfold FileTree.makeSteps
    dsimp only
    split
    · have hmade := ih t habove
      split
      · rename_i u hu
        rw [hu] at hmade
        exact hmade.trans (ensureDirectory u hsteps false)
      · exact hmade
    · exact ensureDirectory t hsteps false

theorem makeDirectories (t : FileTree) (p : Path) : Furnished p t (t.makeDirectories p).2 := by
  apply makeSteps
  simp only [List.reverse_reverse, List.prefix_rfl]

end Furnished

/-- The second tree has a file of these bytes at the location, and all else as in the first. -/
structure Filled (l : Location) (bytes : List UInt8) (t t' : FileTree) : Prop where
  home : t'.home = t.home
  noDirectory : t.lookup l ≠ some .directory
  entry : ∀ l', t'.lookup l' = if l' = l then some (.file bytes) else t.lookup l'

namespace Filled

variable {l : Location} {bytes : List UInt8} {t t' : FileTree}

theorem put (h : t.lookup l ≠ some .directory) (bytes : List UInt8) :
    Filled l bytes t (t.put l (.file bytes)) := ⟨rfl, h, lookup_put t h _⟩

theorem self (h : Filled l bytes t t') : t'.lookup l = some (.file bytes) := by
  rw [h.entry, if_pos rfl]

theorem other (h : Filled l bytes t t') {l' : Location} (hl' : l' ≠ l) :
    t'.lookup l' = t.lookup l' := by
  rw [h.entry, if_neg hl']

theorem keeps (h : Filled l bytes t t') : Keeps t t' := by
  refine ⟨h.home, ?_⟩
  intro l' hl'
  rw [h.other ?_, hl']
  intro heq
  exact h.noDirectory (heq ▸ hl')

theorem read (h : Filled l bytes t t') {p : Path} {old : List UInt8} (hp : t.read p = .ok old) :
    t'.read p = .ok (if t.destination p = l then bytes else old) := by
  apply h.keeps.read hp
  rw [h.entry, (read_eq_ok hp).2.1]
  split <;> rfl

end Filled

theorem create_eq_ok {t t' : FileTree} {p : Path} (h : t.create p = .ok t') :
    Filled (t.destination p) [] t t' ∧ t'.read p = .ok [] := by
  unfold create at h
  split at h
  · cases h
  · rename_i l hl
    rw [← locate_eq_ok hl]
    split at h
    · cases h
    · rename_i hfree
      rw [Bool.or_eq_true, not_or, decide_eq_true_eq] at hfree
      cases h
      have hfilled : Filled l [] t (t.put l (.file [])) := .put hfree.2 []
      have hplace : (t.put l (.file [])).destination p = l :=
        (hfilled.keeps.destination p).trans (locate_eq_ok hl).symm
      refine ⟨hfilled, read_of_file ?_ ?_ (Bool.eq_false_iff.mpr hfree.1)⟩
      · rw [hplace]
        exact hfilled.keeps.locate hl
      · rw [hplace]
        exact hfilled.self

/-- A file that can be read can be written to. -/
theorem write_of_read {t : FileTree} {p : Path} {old : List UInt8} (h : t.read p = .ok old)
    (bytes : List UInt8) :
    ∃ t', t.write p bytes = .ok t' ∧ Filled (t.destination p) bytes t t' ∧
      t'.read p = .ok bytes := by
  obtain ⟨hl, hfile, -⟩ := read_eq_ok h
  have hfilled : Filled (t.destination p) bytes t (t.put (t.destination p) (.file bytes)) :=
    .put (by rw [hfile]; nofun) bytes
  refine ⟨_, ?_, hfilled, ?_⟩
  · simp only [write, hl, hfile]
  · have hread := hfilled.read h
    rwa [if_pos rfl] at hread

end FileTree

end Chip8
