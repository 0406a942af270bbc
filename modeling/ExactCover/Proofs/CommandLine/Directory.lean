import ExactCover.CommandLine.Run
import ExactCover.Proofs.CommandLine.Tree

/-!
# Runs on a directory

A run on a directory prints the reports on its puzzle files one after the other, in order, and ends
with the first one that fails. Nothing else in the directory matters, nor what comes after the
failure.

These are the puzzle files that the walk sees and that have a path short enough. In an open tree
with short paths these are all of them. Elsewhere a puzzle file may be passed over without a word.

## Key results

- `concatenates_solveFound`: reports up to the first failure
- `solveFound_upToFailure`: what comes after it
- `run_directory`: runs on a directory
-/

namespace ExactCover.CommandLine

open Sudoku

/-- The report on a file below the path `root`. -/
def FileBelow.report (o : Options) (root : String) (f : FileBelow) : Transcript :=
  solveFile o (f.path root) f.content

/-- The result of printing reports on files up to the first failure. -/
inductive Concatenates (report : FileBelow → Transcript) (found : List FileBelow) : Result → Prop
  | complete (h : ∀ f ∈ found, (report f).failure = none) :
      Concatenates report found { exit := 0, stdout := found.flatMap fun f => (report f).lines }
  | stopped {before after : List FileBelow} {f : FileBelow} {failure : Failure}
      (hfound : found = before ++ f :: after) (hbefore : ∀ g ∈ before, (report g).failure = none)
      (hf : (report f).failure = some failure) :
      Concatenates report found
        { exit := 1
          stdout := (before ++ [f]).flatMap fun f => (report f).lines
          stderr := [s!"Error: {failure.message}"] }

/-- The walk below the path `root` comes to a puzzle file: no puzzle file before it fails. -/
def Reaches (o : Options) (root : String) (tree : Entry) (f : FileBelow) : Prop :=
  (tree.Shows f ∧ f.IsPuzzle ∧ f.Opens root) ∧
    ∀ g, tree.Shows g ∧ g.IsPuzzle ∧ g.Opens root → g.Before f → (g.report o root).failure = none

variable {lookup : String → Except PathError Entry} {args : List String}
  {entries : List (String × Entry)} {access : Access} {o : Options} {root : String}

/-- The reports on files, one after the other up to the first failure. -/
def solveFound (o : Options) (root : String) (found : List FileBelow) : Transcript :=
  solveFiles o (found.map fun f => (f.path root, f.content))

/-- The files behind the first one are solved if its report does not fail. -/
private theorem solveFound_cons (f : FileBelow) (found : List FileBelow) :
    solveFound o root (f :: found) =
      (f.report o root).andThen fun _ => solveFound o root found := rfl

/-- Reports that do not fail are all printed. -/
private theorem solveFound_append {before : List FileBelow} (rest : List FileBelow)
    (h : ∀ f ∈ before, (f.report o root).failure = none) :
    solveFound o root (before ++ rest) =
      { lines := (before.flatMap fun f => (f.report o root).lines) ++ (solveFound o root rest).lines
        failure := (solveFound o root rest).failure } := by
  -- induction on the files whose reports do not fail
  induction before with
  | nil => rfl
  | cons f before ih =>
    rw [List.forall_mem_cons] at h
    rw [List.cons_append, solveFound_cons, Transcript.andThen, h.1, ih h.2, List.flatMap_cons,
      List.append_assoc]

/-- The reports are printed up to the first failure. -/
theorem concatenates_solveFound (o : Options) (root : String) (found : List FileBelow) :
    Concatenates (FileBelow.report o root) found (.ofTranscript (solveFound o root found)) := by
  -- the first file that fails, if there is one, cuts the list in two
  cases hfirst : found.find? fun f => (f.report o root).failure.isSome with
  -- no file fails, and all reports are printed
  | none =>
    have hall : ∀ f ∈ found, (f.report o root).failure = none := by
      simpa using List.find?_eq_none.mp hfirst
    have hlines := solveFound_append [] hall
    rw [List.append_nil] at hlines
    have hcomplete := Concatenates.complete hall
    rw [hlines]
    simpa [solveFound, solveFiles, Result.ofTranscript] using hcomplete
  -- the first file that fails ends the run
  | some f =>
    obtain ⟨hfails, before, after, hfound, hbefore⟩ := List.find?_eq_some_iff_append.mp hfirst
    obtain ⟨failure, hf⟩ := Option.isSome_iff_exists.mp hfails
    replace hbefore : ∀ g ∈ before, (g.report o root).failure = none := by simpa using hbefore
    have hstopped := Concatenates.stopped hfound hbefore hf
    rw [hfound, solveFound_append _ hbefore, solveFound_cons, Transcript.andThen, hf]
    rw [hfound] at hstopped
    simpa [Result.ofTranscript, hf] using hstopped

/-! ## What comes after a failure -/

/-- The files up to the first one whose report fails. -/
def upToFailure (o : Options) (root : String) : List FileBelow → List FileBelow
  | [] => []
  | f :: found =>
    f :: match (f.report o root).failure with
      | some _ => []
      | none => upToFailure o root found

/-- What comes after a failure is not printed. -/
theorem solveFound_upToFailure (found : List FileBelow) :
    solveFound o root (upToFailure o root found) = solveFound o root found := by
  induction found with
  | nil => rfl
  | cons f found ih =>
    rw [upToFailure, solveFound_cons, solveFound_cons, Transcript.andThen, Transcript.andThen]
    cases (f.report o root).failure with
    | none => simp only [ih]
    | some failure => rfl

/-- These files stand in the order in which they are found. -/
private theorem upToFailure_sublist (found : List FileBelow) :
    (upToFailure o root found).Sublist found := by
  induction found with
  | nil => exact .slnil
  | cons f found ih =>
    rw [upToFailure]
    split
    · exact (List.nil_sublist found).cons_cons f
    · exact ih.cons_cons f

/-- In a list in order these are the files before which no file fails. -/
private theorem mem_upToFailure_iff {found : List FileBelow} (h : found.Pairwise FileBelow.Before)
    {f : FileBelow} : f ∈ upToFailure o root found ↔
      f ∈ found ∧ ∀ g ∈ found, g.Before f → (g.report o root).failure = none := by
  induction found with
  | nil => simp [upToFailure]
  | cons g found ih =>
    rw [List.pairwise_cons] at h
    -- nothing comes before the first file
    have hfirst : ∀ g' ∈ g :: found, g'.Before g → (g'.report o root).failure = none := by
      intro g' hg' hbefore
      rcases List.mem_cons.mp hg' with rfl | hg'
      · exact absurd hbefore (irrefl _)
      · exact absurd hbefore (asymm (h.1 g' hg'))
    rw [upToFailure, List.mem_cons]
    cases hg : (g.report o root).failure with
    | some failure =>
      constructor
      · rintro (rfl | hf)
        · exact ⟨List.mem_cons_self, hfirst⟩
        · exact absurd hf List.not_mem_nil
      · rintro ⟨hf, hbefore⟩
        rcases List.mem_cons.mp hf with rfl | hf
        · exact .inl rfl
        · exact nomatch hg.symm.trans (hbefore g List.mem_cons_self (h.1 f hf))
    | none =>
      dsimp only
      rw [ih h.2, List.forall_mem_cons]
      constructor
      · rintro (rfl | ⟨hf, hbefore⟩)
        · exact ⟨List.mem_cons_self, List.forall_mem_cons.mp hfirst⟩
        · exact ⟨List.mem_cons_of_mem g hf, fun _ => hg, hbefore⟩
      · rintro ⟨hf, -, hbefore⟩
        exact (List.mem_cons.mp hf).imp_right fun hf => ⟨hf, hbefore⟩

/-! ## Runs -/

/-- Links are followed to where they lead in the end. -/
private theorem solveEntry_of_target {e e' : Entry} (h : e.target = .ok e') :
    solveEntry o root e = solveEntry o root e' := by
  fun_induction Entry.target e with
  | case1 e ih =>
    rw [solveEntry]
    exact ih h
  | case2 why => exact nomatch h
  | case3 e =>
    cases h
    rfl

/-- A run on a directory prints what is found there. -/
private theorem run_eq_solveFound (hargs : readArguments args = some (.path o root))
    (hroot : (lookup root).bind Entry.target = .ok (.directory entries access))
    (hnames : (Entry.directory entries access).Distinct) :
    ∃ found : List FileBelow, found.Pairwise FileBelow.Before ∧
      (∀ f, f ∈ found ↔ (Entry.directory entries access).Shows f ∧ f.IsPuzzle ∧ f.Opens root) ∧
      run lookup args = .ofTranscript (solveFound o root found) := by
  obtain ⟨found, hsorted, hmem, hwalk⟩ := Entry.exists_puzzlesIn hnames root
  refine ⟨found, hsorted, hmem, ?_⟩
  have hdirectory : solvePath o root (lookup root) =
      solveEntry o root (.directory entries access) := by
    cases hlookup : lookup root with
    | error why =>
      rw [hlookup] at hroot
      exact nomatch hroot
    | ok e =>
      rw [hlookup] at hroot
      exact solveEntry_of_target hroot
  have hfound : solveEntry o root (.directory entries access) = solveFound o root found := by
    rw [solveFound, ← hwalk, solveEntry]
    split
    · rfl
    · rfl
  rw [run, hargs]
  dsimp only [answer]
  rw [hdirectory, hfound]

/-- A run on a directory prints the reports on its puzzle files in the order of their names, up to
    the first failure. It depends on the files that it reaches, and on nothing else. No puzzle file
    is passed over if the tree is open and no path is too long. -/
theorem run_directory (hargs : readArguments args = some (.path o root))
    (hroot : (lookup root).bind Entry.target = .ok (.directory entries access))
    (hnames : (Entry.directory entries access).Distinct) :
    (∃ found : List FileBelow, found.Pairwise FileBelow.Before ∧
      (∀ f, f ∈ found ↔ (Entry.directory entries access).Shows f ∧ f.IsPuzzle ∧ f.Opens root) ∧
      ((Entry.directory entries access).Open →
        (∀ f, (Entry.directory entries access).Holds f → f.IsPuzzle → f.Opens root) →
        ∀ f, f ∈ found ↔ (Entry.directory entries access).Holds f ∧ f.IsPuzzle) ∧
      Concatenates (FileBelow.report o root) found (run lookup args)) ∧
    ∀ lookup' args' entries' access', readArguments args' = some (.path o root) →
      (lookup' root).bind Entry.target = .ok (.directory entries' access') →
      (Entry.directory entries' access').Distinct →
      (∀ f, Reaches o root (.directory entries access) f ↔
        Reaches o root (.directory entries' access') f) →
      run lookup' args' = run lookup args := by
  obtain ⟨found, hsorted, hmem, hrun⟩ := run_eq_solveFound hargs hroot hnames
  constructor
  · refine ⟨found, hsorted, hmem, fun hopen hshort f => ?_,
      hrun ▸ concatenates_solveFound o root found⟩
    rw [hmem, Entry.shows_iff_holds hopen]
    exact and_congr_right fun hholds => and_iff_left_of_imp (hshort f hholds)
  · intro lookup' args' entries' access' hargs' hroot' hnames' hreaches
    obtain ⟨found', hsorted', hmem', hrun'⟩ := run_eq_solveFound hargs' hroot' hnames'
    -- both runs print the same files up to the first failure, so they print the same
    have hmem_iff (f : FileBelow) :
        f ∈ upToFailure o root found' ↔ f ∈ upToFailure o root found := by
      rw [mem_upToFailure_iff hsorted', mem_upToFailure_iff hsorted]
      simp only [hmem, hmem']
      exact (hreaches f).symm
    have heq : upToFailure o root found' = upToFailure o root found :=
      (hsorted'.sublist (upToFailure_sublist found')).eq_of_mem_iff
        (hsorted.sublist (upToFailure_sublist found)) hmem_iff
    rw [hrun, hrun', ← solveFound_upToFailure found', heq, solveFound_upToFailure]

/-- A directory with a puzzle beside a file that is none. The second tree stands behind a link. It
    holds them in another order, with a file without extension and a directory that cannot be
    listed. -/
theorem run_directory_stops :
    let o : Options := { method := .backtracking }
    let inner := [("z.sudoku", Entry.file (String.ofList (List.replicate 81 '.')).toUTF8)]
    let tree := [("a.sudoku", Entry.file ByteArray.empty), ("a", .directory inner)]
    let hidden := [("y.sudoku", Entry.file ByteArray.empty)]
    let tree' := [(".sudoku", Entry.file ByteArray.empty),
      ("Z", .directory hidden { list := false }), ("a", .directory inner),
      ("a.sudoku", .file ByteArray.empty)]
    let args := ["--solver=backtracking", "d"]
    let args' := ["file", "--path", "d", "--solver", "backtracking"]
    let lookup : String → Except PathError Entry := fun _ => .ok (.directory tree)
    let lookup' : String → Except PathError Entry := fun _ => .ok (.link (.ok (.directory tree')))
    (∃ found : List FileBelow, found.Pairwise FileBelow.Before ∧
      (∀ f, f ∈ found ↔ (Entry.directory tree).Holds f ∧ f.IsPuzzle) ∧
      Concatenates (FileBelow.report o "d") found (run lookup args)) ∧
    run lookup' args' = run lookup args := by
  intro o inner tree hidden tree' args args' lookup lookup'
  have hargs : readArguments args = some (.path o "d") := by decide +kernel
  have hargs' : readArguments args' = some (.path o "d") := by decide +kernel
  have hroot : (lookup "d").bind Entry.target = .ok (.directory tree) := rfl
  have hleaf (content : ByteArray) : (Entry.file content).Distinct := .other rfl
  have hinner : (Entry.directory inner).Distinct := .directory (by decide) (by simp [inner, hleaf])
  have hhidden : (Entry.directory hidden { list := false }).Distinct :=
    .directory (by decide) (by simp [hidden, hleaf])
  have hnames : (Entry.directory tree).Distinct :=
    .directory (by decide) (by simp [tree, hleaf, hinner])
  have hnames' : (Entry.directory tree').Distinct :=
    .directory (by decide) (by simp [tree', hleaf, hinner, hhidden])
  -- the walk sees both puzzles in both trees, and a third file in the second one
  let a : FileBelow := { names := ["a.sudoku"], content := .ok ByteArray.empty }
  let z : FileBelow :=
    { names := ["a", "z.sudoku"], content := .ok (String.ofList (List.replicate 81 '.')).toUTF8 }
  let bare : FileBelow := { names := [".sudoku"], content := .ok ByteArray.empty }
  have hfiles : Entry.files (.directory tree) = [a, z] := rfl
  have hfiles' : Entry.files (.directory tree') = [bare, z, a] := rfl
  have hbare : ¬bare.IsPuzzle := by
    rw [← Entry.isPuzzleName_getLast_iff]
    decide
  have hpuzzles (f : FileBelow) : (Entry.directory tree).Shows f ∧ f.IsPuzzle ∧ f.Opens "d" ↔
      (Entry.directory tree').Shows f ∧ f.IsPuzzle ∧ f.Opens "d" := by
    rw [← Entry.mem_files_iff, ← Entry.mem_files_iff, ← and_assoc, ← and_assoc, hfiles, hfiles']
    refine and_congr_left' (and_congr_left fun hpuzzle => ?_)
    have hother : f ≠ bare := by
      rintro rfl
      exact hbare hpuzzle
    simp [hother, or_comm]
  -- the first tree is open, and its paths are short
  have hopenLeaf (content : ByteArray) : (Entry.file content).Open := .other rfl
  have hopenInner : (Entry.directory inner).Open := .directory rfl (by simp [inner, hopenLeaf])
  have hopen : (Entry.directory tree).Open := .directory rfl (by simp [tree, hopenLeaf, hopenInner])
  have hshort (f : FileBelow) (hf : (Entry.directory tree).Holds f) : f.Opens "d" := by
    rw [← Entry.shows_iff_holds hopen, ← Entry.mem_files_iff, hfiles, List.mem_pair] at hf
    rcases hf with rfl | rfl
    · exact Nat.le_of_ble_eq_true (by decide +kernel)
    · exact Nat.le_of_ble_eq_true (by decide +kernel)
  have hsame : run lookup' args' = run lookup args := by
    refine (run_directory hargs hroot hnames).2 lookup' args' tree' {} hargs' rfl hnames' fun f => ?_
    simp only [Reaches, hpuzzles]
  obtain ⟨found, hsorted, -, hall, hrun⟩ := (run_directory hargs hroot hnames).1
  exact ⟨⟨found, hsorted, hall hopen fun f hf _ => hshort f hf, hrun⟩, hsame⟩

/-! ## Long paths -/

/-- A long way to the directory `d`. -/
def roundabout : Nat → String
  | 0 => "d"
  | n + 1 => "./" ++ roundabout n

private theorem utf8ByteSize_roundabout (n : Nat) : (roundabout n).utf8ByteSize = 2 * n + 1 := by
  induction n with
  | zero => rfl
  | succ n ih =>
    have hstep : "./".utf8ByteSize = 2 := rfl
    rw [roundabout, String.utf8ByteSize_append, ih, hstep]
    omega

private theorem readArguments_roundabout (n : Nat) :
    readArguments [roundabout n] = some (.path {} (roundabout n)) := by
  cases n with
  | zero => decide
  | succ n =>
    -- the argument begins with a point, so it is neither a command nor an option
    have hlist : (roundabout (n + 1)).toList = '.' :: '/' :: (roundabout n).toList := by
      rw [roundabout, String.toList_append]
      rfl
    have hword (s : String) (hs : s.toList.head? ≠ some '.') : roundabout (n + 1) ≠ s := by
      intro heq
      rw [← heq, hlist] at hs
      exact hs rfl
    have hhelp := hword "help" (by decide)
    have hlookup : subcommands.lookup (roundabout (n + 1)) = none := by
      have hfile := hword "file" (by decide)
      have htext := hword "text" (by decide)
      have hcompletions := hword "completions" (by decide)
      simp [subcommands, List.lookup_cons, beq_false_of_ne hfile, beq_false_of_ne htext,
        beq_false_of_ne hcompletions]
    -- it is the only operand
    have hnext : Reading.next { level := .top } (roundabout (n + 1)) =
        .ok { level := .top, operands := [roundabout (n + 1)] } := by
      have hempty := hword "" (by decide)
      simp [Reading.next, hlist, Reading.operand, Reading.maxOperands, hempty]
    simp [readArguments, readTop, hhelp, hlookup, hnext, Reading.finish, bind, Except.bind, pure,
      Except.pure]

/-- A file of a directory has a longer path than the directory. -/
private theorem utf8ByteSize_le_join (path name : String) :
    path.utf8ByteSize + name.utf8ByteSize ≤ (Entry.join path name).utf8ByteSize := by
  rw [Entry.join]
  split
  · rw [String.utf8ByteSize_append]
  · rw [String.utf8ByteSize_append, String.utf8ByteSize_append]
    omega

private theorem FileBelow.Opens.utf8ByteSize_le {name : String}
    {content : Except PathError ByteArray} (h : Opens root { names := [name], content }) :
    root.utf8ByteSize + name.utf8ByteSize ≤ Entry.maxPathBytes :=
  (utf8ByteSize_le_join root name).trans h

/-- A puzzle file is passed over if its path is too long to be opened, although it would fail. -/
theorem run_passes_over_long_path :
    let root := roundabout 2045
    let tree := [("a.sudoku", Entry.file ByteArray.empty)]
    let lookup : String → Except PathError Entry := fun _ => .ok (.directory tree)
    readArguments [root] = some (.path {} root) ∧ (Entry.directory tree).Distinct ∧
      ¬∃ found : List FileBelow, found.Pairwise FileBelow.Before ∧
        (∀ f, f ∈ found ↔ (Entry.directory tree).Holds f ∧ f.IsPuzzle) ∧
        Concatenates (FileBelow.report {} root) found (run lookup [root]) := by
  intro root tree lookup
  have hargs : readArguments [root] = some (.path {} root) := readArguments_roundabout 2045
  have hleaf : (Entry.file ByteArray.empty).Distinct := .other rfl
  have hnames : (Entry.directory tree).Distinct :=
    .directory (by decide) (by simp [tree, hleaf])
  refine ⟨hargs, hnames, ?_⟩
  rintro ⟨found, -, hmem, hrun⟩
  -- the only file of the directory cannot be opened
  have hexit : (run lookup [root]).exit = 0 := by
    obtain ⟨opened, -, hopened, heq⟩ : ∃ opened : List FileBelow, opened.Pairwise FileBelow.Before ∧
        (∀ f, f ∈ opened ↔ (Entry.directory tree).Shows f ∧ f.IsPuzzle ∧ f.Opens root) ∧
        run lookup [root] = .ofTranscript (solveFound {} root opened) :=
      run_eq_solveFound hargs rfl hnames
    have hnone : opened = [] := by
      rw [List.eq_nil_iff_forall_not_mem]
      intro f hf
      obtain ⟨hshows, -, hopens⟩ := (hopened f).mp hf
      rw [← Entry.mem_files_iff] at hshows
      obtain rfl : f = { names := ["a.sudoku"], content := .ok ByteArray.empty } := by
        simpa [tree, Entry.files, Entry.filesIn, FileBelow.under, Access.shows,
          Entry.regular?] using hshows
      have hlength := hopens.utf8ByteSize_le
      have hroot : root.utf8ByteSize = 2 * 2045 + 1 := utf8ByteSize_roundabout 2045
      have hname : "a.sudoku".utf8ByteSize = 8 := rfl
      have hmax : Entry.maxPathBytes = 4095 := rfl
      omega
    rw [heq, hnone]
    rfl
  -- but the report on it fails
  let f : FileBelow := { names := ["a.sudoku"], content := .ok ByteArray.empty }
  have hf : f ∈ found :=
    (hmem f).mpr ⟨.inside (List.mem_singleton_self _) (.here rfl), "a", by decide, rfl⟩
  have hparse : Puzzle.parseBytes ByteArray.empty = .error (.wrongCellCount 0) := rfl
  have hfails : (f.report {} root).failure = some (.parse (.wrongCellCount 0)) := by
    rw [FileBelow.report, solveFile, hparse]
    rfl
  generalize run lookup [root] = r at hrun hexit
  cases hrun with
  | complete h => exact Option.some_ne_none _ (hfails.symm.trans (h f hf))
  | stopped => exact Nat.one_ne_zero hexit

end ExactCover.CommandLine
