import Mathlib
import Chip8.Disassembly
import Chip8.Proofs.Files.Tree
import Chip8.Proofs.Listing

namespace Chip8.Disassembly

open FileTree (Furnished Filled)

section Steps

variable {α β : Type}

theorem run_bind (action : ExceptT CommandError (StateM FileTree) α)
    (next : α → ExceptT CommandError (StateM FileTree) β) (t : FileTree) :
    (action >>= next).run.run t =
      match action.run.run t with
      | (.ok a, t') => (next a).run.run t'
      | (.error e, t') => (.error e, t') := by
  rw [ExceptT.run_bind, StateT.run_bind]
  obtain ⟨result, t'⟩ := action.run.run t
  cases result <;> rfl

/-- A step on the tree is taken, or the command ends with what the step made of the tree. -/
theorem run_attempt_bind (action : StateM FileTree (Except FileError α))
    (next : α → ExceptT CommandError (StateM FileTree) β) (t : FileTree) :
    (attempt action >>= next).run.run t =
      match action.run t with
      | (.ok a, t') => (next a).run.run t'
      | (.error e, t') => (.error (.file e), t') := by
  have hattempt : (attempt action).run.run t =
      ((action.run t).1.mapError .file, (action.run t).2) := rfl
  rw [run_bind, hattempt]
  obtain ⟨result, t'⟩ := action.run t
  cases result <;> rfl

end Steps

/-- The command on a tree: what comes of it, and the tree that it leaves. -/
def onTree (t : FileTree) (rom : String) (output? : Option String) :
    Except CommandError Log.Record × FileTree :=
  (run FileTree.access rom output?).run.run t

/-- What is done once the directory of the output is there. -/
def fill (rom output : String) : ExceptT CommandError (StateM FileTree) Log.Record := do
  attempt (FileTree.access.create (Path.parse output))
  let bytes ← attempt (FileTree.access.read (Path.parse rom))
  attempt (FileTree.access.write (Path.parse output) (Listing.bytes rom bytes))
  return ⟨.info, .command, "Wrote disassembled ROM to " ++ output⟩

theorem run_none (rom : String) : run FileTree.access rom none = fill rom defaultOutput := rfl

theorem run_some (rom output : String) :
    run FileTree.access rom (some output) =
      prepare FileTree.access output >>= fun _ => fill rom output := rfl

theorem furnished_prepare (t : FileTree) (output : String) :
    Furnished (Path.parse output).directory t
      ((prepare FileTree.access output).run.run t).2 := by
  have hprepare : (prepare FileTree.access output).run.run t =
      match outputDirectory output with
      | .ok directory =>
        if directory.isEmpty then (.ok (), t)
        else ((t.makeDirectories directory).1.mapError .file, (t.makeDirectories directory).2)
      | .error e => (.error e, t) := by
    have hsettled : (ExceptT.mk (pure (outputDirectory output)) :
        ExceptT CommandError (StateM FileTree) Path).run.run t = (outputDirectory output, t) := rfl
    rw [prepare, run_bind, hsettled]
    cases outputDirectory output with
    | error e => rfl
    | ok directory =>
      dsimp only
      cases directory.isEmpty <;> rfl
  rw [hprepare]
  unfold outputDirectory
  dsimp only
  by_cases hext : (Path.parse output).extension?.isSome
  · rw [if_pos hext]
    dsimp only
    split
    · exact .refl _ t
    · exact .makeDirectories t _
  · rw [if_neg hext]
    exact .refl _ t

/-- How the command can end: before its output is open, with a program that cannot be read, or
with the listing written. -/
inductive Ends (t : FileTree) (rom : String) (output : Path) :
    Except CommandError Log.Record × FileTree → Prop
  | unopened {t' : FileTree} (e : CommandError) (furnished : Furnished output.directory t t') :
      Ends t rom output (.error e, t')
  | unread {u t' : FileTree} (e : FileError) (furnished : Furnished output.directory t u)
      (emptied : Filled (t.destination output) [] u t') (shown : t'.read output = .ok [])
      (refused : t'.read (Path.parse rom) = .error e) :
      Ends t rom output (.error (.file e), t')
  | written {u v t' : FileTree} (bytes : List UInt8) (record : Log.Record)
      (furnished : Furnished output.directory t u)
      (emptied : Filled (t.destination output) [] u v)
      (found : v.read (Path.parse rom) = .ok bytes)
      (filled : Filled (t.destination output) (Listing.bytes rom bytes) v t')
      (shown : t'.read output = .ok (Listing.bytes rom bytes)) :
      Ends t rom output (.ok record, t')

theorem ends_fill {t u : FileTree} {output : String}
    (furnished : Furnished (Path.parse output).directory t u) (rom : String) :
    Ends t rom (Path.parse output) ((fill rom output).run.run u) := by
  -- the new directories and the emptied output change nothing about where the output is
  have hu := furnished.keeps.destination (Path.parse output)
  have hopen : (FileTree.access.create (Path.parse output)).run u =
      u.settle (u.create (Path.parse output)) := rfl
  rw [fill, run_attempt_bind, hopen]
  cases hcreate : u.create (Path.parse output) with
  | error e => exact .unopened (.file e) furnished
  | ok v =>
    obtain ⟨emptied, hempty⟩ := FileTree.create_eq_ok hcreate
    have hv := emptied.keeps.destination (Path.parse output)
    rw [hu] at emptied hv
    have hload : (FileTree.access.read (Path.parse rom)).run v = (v.read (Path.parse rom), v) := rfl
    dsimp only [FileTree.settle]
    rw [run_attempt_bind, hload]
    cases hread : v.read (Path.parse rom) with
    | error e => exact .unread e furnished emptied hempty hread
    | ok bytes =>
      obtain ⟨t', hwrite, filled, shown⟩ :=
        FileTree.write_of_read hempty (Listing.bytes rom bytes)
      rw [hv] at filled
      have hstore : (FileTree.access.write (Path.parse output) (Listing.bytes rom bytes)).run v =
          v.settle (v.write (Path.parse output) (Listing.bytes rom bytes)) := rfl
      dsimp only
      rw [run_attempt_bind, hstore, hwrite]
      exact .written bytes _ furnished emptied hread filled shown

theorem ends (t : FileTree) (rom : String) (output? : Option String) :
    Ends t rom (Path.parse (output?.getD defaultOutput)) (onTree t rom output?) := by
  cases output? with
  | none =>
    rw [onTree, run_none]
    exact ends_fill (.refl _ t) rom
  | some output =>
    have furnished := furnished_prepare t output
    rw [onTree, run_some, run_bind]
    generalize (prepare FileTree.access output).run.run t = prepared at furnished
    obtain ⟨result, u⟩ := prepared
    cases result with
    | error e => exact .unopened e furnished
    | ok _ => exact ends_fill furnished rom

/-- A command that fails leaves all files as they were and makes none, but for one reason to fail:
the program cannot be read once the output is open. Then the output is left as an empty file. -/
theorem failure_costs_output_at_most (t : FileTree) (rom : String) (output? : Option String)
    (e : CommandError) (t' : FileTree) (h : onTree t rom output? = (.error e, t')) :
    let output := Path.parse (output?.getD defaultOutput)
    ((∃ bytes, t.read (Path.parse rom) = .ok bytes) → t.SameFiles t') ∧
      (t.SameFiles t' ∨
        (∃ reason, e = .file reason ∧ t'.read (Path.parse rom) = .error reason) ∧
          t'.read output = .ok [] ∧
          ∀ l, l ≠ t.destination output →
            ∀ bytes, t'.lookup l = some (.file bytes) ↔ t.lookup l = some (.file bytes)) := by
  intro output
  have hends := ends t rom output?
  rw [h] at hends
  cases hends with
  | unopened e furnished => exact ⟨fun _ => furnished.sameFiles, .inl furnished.sameFiles⟩
  | unread reason furnished emptied shown refused =>
    refine ⟨?_, .inr ⟨⟨reason, rfl, refused⟩, shown, ?_⟩⟩
    · rintro ⟨bytes, hread⟩
      rw [emptied.read (furnished.read hread)] at refused
      cases refused
    · intro l hl bytes
      rw [emptied.other hl]
      exact furnished.sameFiles l bytes

/-- A file stands where a directory is wanted. The directory that was made before is left. -/
theorem file_on_the_way_is_kept :
    let t : FileTree :=
      ⟨[(["pong.ch8"], .file [0x12, 0x00]), (["notes.txt"], .file [0x6B])], []⟩
    ∃ t', onTree t "pong.ch8" (some "fresh/../notes.txt/pong.txt") =
        (.error (.file .alreadyExists), t') ∧ t.SameFiles t' ∧
      t.lookup ["fresh"] = none ∧ t'.lookup ["fresh"] = some .directory := by
  intro t
  refine ⟨t.put ["fresh"] .directory, ?_⟩
  have hrun : onTree t "pong.ch8" (some "fresh/../notes.txt/pong.txt") =
      (.error (.file .alreadyExists), t.put ["fresh"] .directory) := by
    cbv
  have hread : t.read (Path.parse "pong.ch8") = .ok [0x12, 0x00] := by cbv
  obtain ⟨hkept, -⟩ := failure_costs_output_at_most t "pong.ch8"
    (some "fresh/../notes.txt/pong.txt") (.file .alreadyExists) _ hrun
  exact ⟨hrun, hkept ⟨_, hread⟩, by decide +kernel⟩

/-- The name of the program is misspelled, and what the output held is gone. -/
theorem missing_program_empties_output :
    let t : FileTree := ⟨[(["notes.txt"], .file [0x6B])], []⟩
    let t' := (onTree t "missing.ch8" (some "notes.txt")).2
    (onTree t "missing.ch8" (some "notes.txt")).1 = .error (.file .notFound) ∧
      t.lookup ["notes.txt"] = some (.file [0x6B]) ∧ t'.lookup ["notes.txt"] = some (.file []) ∧
      ¬ t.SameFiles t' := by
  intro t t'
  have hrun : onTree t "missing.ch8" (some "notes.txt") =
      (.error (.file .notFound), ⟨[(["notes.txt"], .file [])], []⟩) := by
    cbv
  have hbefore : t.lookup ["notes.txt"] = some (.file [0x6B]) := by decide +kernel
  have hafter : t'.lookup ["notes.txt"] = some (.file []) := by decide +kernel
  refine ⟨by rw [hrun], hbefore, hafter, ?_⟩
  intro hsame
  have hkept := (hsame ["notes.txt"] [0x6B]).mpr hbefore
  rw [hafter] at hkept
  cases hkept

/-- A program that can be read is as it was after the command, unless the output is the program
itself and the command succeeds. Then the listing of no program at all is in its place. -/
theorem program_kept_unless_output (t : FileTree) (rom : String) (output? : Option String)
    (bytes : List UInt8) (h : t.read (Path.parse rom) = .ok bytes)
    (result : Except CommandError Log.Record) (t' : FileTree)
    (hrun : onTree t rom output? = (result, t')) :
    let output := Path.parse (output?.getD defaultOutput)
    (t.destination output ≠ t.destination (Path.parse rom) ∨ (∃ e, result = .error e) →
        t'.read (Path.parse rom) = .ok bytes) ∧
      (t.destination output = t.destination (Path.parse rom) → (∃ record, result = .ok record) →
        t'.read (Path.parse rom) = .ok (Listing.bytes rom [])) := by
  intro output
  have hends := ends t rom output?
  rw [hrun] at hends
  cases hends with
  | unopened e furnished =>
    refine ⟨fun _ => furnished.read h, ?_⟩
    rintro - ⟨record, hrecord⟩
    cases hrecord
  | unread e furnished emptied shown refused =>
    -- what could be read before can be read with the output open, if only as an empty file
    rw [emptied.read (furnished.read h)] at refused
    cases refused
  | written found record furnished emptied hfound filled shown =>
    have hread := emptied.read (furnished.read h)
    have hafter := filled.read hread
    rw [emptied.keeps.destination] at hafter
    rw [furnished.keeps.destination] at hread hafter
    constructor
    · rintro (hne | ⟨e, he⟩)
      · rwa [if_neg hne.symm, if_neg hne.symm] at hafter
      · cases he
    · rintro heq -
      rw [if_pos heq.symm] at hread hafter
      rw [hread] at hfound
      cases hfound
      exact hafter

/-- The program is named by way of the directory that its listing goes to. -/
theorem program_beside_its_listing_is_kept :
    let t : FileTree := ⟨[(["lists"], .directory), (["pong.ch8"], .file [0x12, 0x00])], []⟩
    let rom := "lists/../pong.ch8"
    t.read (Path.parse rom) = .ok [0x12, 0x00] ∧
      ∃ record t', onTree t rom (some "lists/pong.txt") = (.ok record, t') ∧
        t'.read (Path.parse rom) = .ok [0x12, 0x00] := by
  intro t rom
  have hread : t.read (Path.parse rom) = .ok [0x12, 0x00] := by cbv
  have hplace : t.destination (Path.parse "lists/pong.txt") ≠ t.destination (Path.parse rom) := by
    decide +kernel
  have hok : (onTree t rom (some "lists/pong.txt")).1.isOk = true := by decide +kernel
  cases hrun : onTree t rom (some "lists/pong.txt") with
  | mk result t' =>
    rw [hrun] at hok
    cases result with
    | error e => cases hok
    | ok record =>
      obtain ⟨hkept, -⟩ := program_kept_unless_output t rom (some "lists/pong.txt") [0x12, 0x00]
        hread _ t' hrun
      exact ⟨hread, record, t', rfl, hkept (.inl hplace)⟩

/-- A program of the name that outputs have by default is listed without a word on where to. The
command succeeds, and of the program the header of its listing is left. -/
theorem default_output_replaces_program :
    let t : FileTree := ⟨[(["output.txt"], .file [0x00, 0xE0, 0x12, 0x00])], []⟩
    let t' := (onTree t "output.txt" none).2
    t.read (Path.parse "output.txt") = .ok [0x00, 0xE0, 0x12, 0x00] ∧
      (onTree t "output.txt" none).1.isOk = true ∧
      t'.lookup ["output.txt"] = some (.file "== output.txt ==\n".toUTF8.toList) ∧
      t'.lookup ["output.txt"] ≠ t.lookup ["output.txt"] := by
  intro t t'
  refine ⟨by cbv, ?_⟩
  decide +kernel

/-- The output of a command that succeeds holds the listing of the program, if it is not the program
itself. All else is as it was, but for new directories on the way to the output. -/
theorem success_writes_listing_only (t : FileTree) (rom : String) (output? : Option String)
    (record : Log.Record) (t' : FileTree) (h : onTree t rom output? = (.ok record, t'))
    (hne : t.destination (Path.parse (output?.getD defaultOutput)) ≠
      t.destination (Path.parse rom)) :
    let output := Path.parse (output?.getD defaultOutput)
    ∃ bytes, t.lookup (t.destination (Path.parse rom)) = some (.file bytes) ∧
      (∀ before, t.read (Path.parse rom) = .ok before → before = bytes) ∧
      t'.read (Path.parse rom) = .ok bytes ∧
      t'.read output = .ok (Listing.bytes rom bytes) ∧
      t'.lookup (t.destination output) = some (.file (Listing.bytes rom bytes)) ∧
      String.fromUTF8? (Listing.bytes rom bytes).toByteArray = some (Listing.text rom bytes) ∧
      ∀ l, l ≠ t.destination output →
        t'.lookup l = t.lookup l ∨
          t.OnWay output.directory l ∧ t.lookup l = none ∧ t'.lookup l = some .directory := by
  intro output
  have hends := ends t rom output?
  rw [h] at hends
  cases hends with
  | written bytes record furnished emptied found filled shown =>
    have hplace : t.destination (Path.parse rom) ≠ t.destination output := hne.symm
    have hread := filled.read found
    obtain ⟨-, hfile, -⟩ := FileTree.read_eq_ok found
    rw [emptied.keeps.destination, furnished.keeps.destination] at hread hfile
    rw [if_neg hplace] at hread
    rw [emptied.other hplace] at hfile
    have hbefore := (furnished.sameFiles _ bytes).mp hfile
    refine ⟨bytes, hbefore, ?_, hread, shown, filled.self, Listing.fromUTF8?_bytes rom bytes, ?_⟩
    · intro before h
      have hsame := (FileTree.read_eq_ok h).2.1
      rw [hbefore] at hsame
      cases hsame
      rfl
    · intro l hl
      rw [filled.other hl, emptied.other hl]
      exact furnished.entry l

/-- Two directories are made for the listing. -/
theorem listing_in_new_directories :
    let t : FileTree :=
      ⟨[(["pong.ch8", "home"], .file [0x12, 0x00, 0xA2]), (["home"], .directory)], ["home"]⟩
    let rom := "./pong.ch8"
    ∃ record t', onTree t rom (some "out/lists/pong.txt") = (.ok record, t') ∧
      t'.read (Path.parse "out/lists/pong.txt") = .ok
        "== ./pong.ch8 ==\n200  1200  JP 0x200\n202  A200  LD I, 0x200\n".toUTF8.toList ∧
      t'.lookup ["lists", "out", "home"] = some .directory ∧
      t'.read (Path.parse rom) = .ok [0x12, 0x00, 0xA2] := by
  intro t rom
  have hread : t.read (Path.parse rom) = .ok [0x12, 0x00, 0xA2] := by cbv
  have hplace : t.destination (Path.parse "out/lists/pong.txt") ≠
      t.destination (Path.parse rom) := by
    decide +kernel
  obtain ⟨hok, hdirectory⟩ : (onTree t rom (some "out/lists/pong.txt")).1.isOk = true ∧
      (onTree t rom (some "out/lists/pong.txt")).2.lookup ["lists", "out", "home"] =
        some .directory := by
    decide +kernel
  cases hrun : onTree t rom (some "out/lists/pong.txt") with
  | mk result t' =>
    rw [hrun] at hok hdirectory
    cases result with
    | error e => cases hok
    | ok record =>
      obtain ⟨bytes, -, hbytes, hkept, hlisting, -, -⟩ :=
        success_writes_listing_only t rom (some "out/lists/pong.txt") record t' hrun hplace
      cases hbytes _ hread
      have htext : Listing.text rom [0x12, 0x00, 0xA2] =
          "== ./pong.ch8 ==\n200  1200  JP 0x200\n202  A200  LD I, 0x200\n" := by
        decide +kernel
      rw [Listing.bytes, htext] at hlisting
      exact ⟨record, t', rfl, hlisting, hdirectory, hkept⟩

end Chip8.Disassembly
