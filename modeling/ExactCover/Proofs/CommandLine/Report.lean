import ExactCover.CommandLine.Run
import ExactCover.Proofs.Sudoku.Printing
import ExactCover.Proofs.Sudoku.Solver

/-!
# The report is true

A report speaks of a solution in several places: the verdict, the statistics, the answer to the
question whether there is only one, and the solution itself. These agree, and what they say is true
of the puzzle. The options for the verdict and for the statistics add their lines and change nothing
else.

## Key results

- `filter_lines`: where the signals of a report stand
- `ofBoard_faithful`, `ofParsed_lines`: the report on a board, and what the options change
- `run_reports`: runs on a text or on a file
-/

namespace ExactCover.CommandLine

open Sudoku

/-- The arguments pose a puzzle, which stands in the arguments or in a file. The report is labelled
    by the path of the file, and `parsed` is what was read. -/
inductive Poses (lookup : String → Except PathError Entry) (args : List String) (o : Options) :
    Option String → Except ParseError Board → Prop
  | text {input : String} (h : readArguments args = some (.text o input)) :
      Poses lookup args o none (Puzzle.parse input)
  | file {path : String} {content : ByteArray} (h : readArguments args = some (.path o path))
      (hfile : lookup path = .ok (.file content)) :
      Poses lookup args o (some path) (Puzzle.parseBytes content)

variable {lookup : String → Except PathError Entry} {args : List String} {o : Options}
  {label : Option String} {parsed : Except ParseError Board} {b : Board}

/-- A run on a puzzle prints its report. -/
theorem Poses.run_eq (h : Poses lookup args o label parsed) :
    run lookup args = .ofTranscript (Report.ofParsed o label parsed) := by
  cases h with
  | text h =>
    rw [run, h]
    rfl
  | @file path content h hfile =>
    have hanswer : answer lookup (.path o path) =
        .ofTranscript (solvePath o path (lookup path)) := rfl
    rw [run, h]
    dsimp only
    rw [hanswer, hfile]
    rfl

namespace Report

/-! ## Signals -/

/-- The line begins like one that says whether there is a solution, or another one. -/
def isSignal (l : String) : Bool :=
  l.toList.take 2 ∈ [['V', 'e'], ['S', 'O'], ['U', 'N'], ['U', 'n']]

/-- The text begins no signal. -/
def Plain (s : String) : Prop := 2 ≤ s.toList.length ∧ isSignal s = false

instance : DecidablePred Plain := fun s =>
  inferInstanceAs (Decidable (2 ≤ s.toList.length ∧ isSignal s = false))

/-- What follows two characters that begin no signal does not matter. -/
theorem Plain.append {s : String} (h : Plain s) (t : String) : Plain (s ++ t) := by
  refine ⟨?_, ?_⟩
  · rw [String.toList_append, List.length_append]
    exact Nat.le_add_right_of_le h.1
  · rw [isSignal, String.toList_append, List.take_append_of_le_length h.1]
    exact h.2

/-- What the reader knows no place for stands in no drawing. -/
private theorem not_mem_drawingChars {c : Char} (hc : Glyph.ofChar? c = none) (b : Board) :
    c ∉ b.drawingChars := by
  -- the drawing spells the cells, so the reader knows a place for each of its characters
  have hspells := b.decorates_drawingChars.spells b.spells_lineChars
  generalize b.drawingChars = text at hspells
  generalize b.toList = contents at hspells
  induction hspells with
  | nil => exact List.not_mem_nil
  | cons hsays _ ih =>
    rw [List.mem_cons, not_or]
    refine ⟨?_, ih⟩
    rintro rfl
    obtain ⟨g, hg, -⟩ := Puzzle.says_iff.mp hsays
    exact nomatch hc.symm.trans hg

/-- No line of a drawing is a signal. -/
private theorem filter_boardLines (b : Board) : (boardLines b).filter isSignal = [] := by
  rw [List.filter_eq_nil_iff]
  intro l hl hsignal
  -- a line of the drawing, or the empty line at its end
  rcases List.mem_append.mp hl with hl | hl
  · obtain ⟨chars, hchars, rfl⟩ := List.mem_map.mp hl
    rw [isSignal, String.toList_ofList] at hsignal
    -- a signal has a letter that stands in no drawing
    have hletter : ∃ c ∈ chars, Glyph.ofChar? c = none := by
      generalize hstart : chars.take 2 = start at hsignal
      have hmem : ∀ c ∈ start, c ∈ chars := fun c hc => List.mem_of_mem_take (hstart ▸ hc)
      simp only [decide_eq_true_eq, List.mem_cons, List.not_mem_nil, or_false] at hsignal
      rcases hsignal with rfl | rfl | rfl | rfl <;>
        exact ⟨_, hmem _ List.mem_cons_self, by decide⟩
    obtain ⟨c, hc, hnone⟩ := hletter
    exact not_mem_drawingChars hnone b
      (List.mem_flatMap.mpr ⟨chars, hchars, List.mem_append_left _ hc⟩)
  · rw [List.mem_singleton.mp hl] at hsignal
    exact absurd hsignal (by decide)

/-- No line before the search is a signal. -/
private theorem filter_openingLines (label : Option String) (b : Board) :
    (openingLines label b).filter isSignal = [] := by
  have hparsed : isSignal "Parsed Sudoku:" = false := by decide
  rw [openingLines, List.filter_append, List.filter_cons, if_neg (by simp [hparsed]),
    filter_boardLines, List.append_nil]
  -- the label is a path, which may have any characters, but it does not begin the line
  cases label with
  | none => rfl
  | some path =>
    have hbegin : Plain "Solving: " := by decide
    have hsolving : isSignal s!"Solving: {path}" = false := (hbegin.append path).2
    simp [hsolving]

/-- Of the statistics only the last line is a signal. -/
private theorem filter_statsLines (b : Board) (shape : Option Shape) (stats : Stats) :
    (statsLines b shape stats).filter isSignal =
      [if 0 < stats.solutions then "SOLVED" else "UNSOLVABLE"] := by
  -- no other line of the statistics begins like a signal
  have hbar : Plain "|  " := by decide
  have hstat (label : String) (value : Nat) : isSignal (statLine label value) = false :=
    ((((hbar.append _).append " ").append _).append "  |").2
  have hrate (label : String) (value : Nat) : isSignal (rateLine label value) = false :=
    ((((hbar.append _).append " ").append _).append " (*)").2
  have hmachine (label : String) : isSignal (machineLine label) = false :=
    ((hbar.append _).append " *").2
  have hshape : (shapeLines shape).filter isSignal = [] := by
    cases shape <;> simp [shapeLines, hstat]
  have hlast : isSignal (if 0 < stats.solutions then "SOLVED" else "UNSOLVABLE") = true := by
    split <;> decide
  have hempty : isSignal "" = false := by decide
  have hproblem : isSignal
      "=======================[ Problem Statistics ]=========================" = false := by decide
  have hsearch : isSignal
      "========================[ Search Statistics ]========================" = false := by decide
  have hrule : isSignal ruleLine = false := by decide
  simp [statsLines, hstat, hrate, hmachine, hshape, hlast, hempty, hproblem, hsearch, hrule]

/-- The lines at the end are no signals. -/
private theorem filter_solutionLines (solution : Option Board) :
    (solutionLines solution).filter isSignal = [] := by
  cases solution with
  | none => decide
  | some s =>
    have hsolution : isSignal "Solution:" = false := by decide
    rw [solutionLines, List.filter_cons, if_neg (by simp [hsolution]), filter_boardLines]

/-! ## Reports on a board -/

/-- The board printed in a report is read back. -/
private theorem parse_boardLines (s : Board) :
    Puzzle.parse (String.join ((boardLines s).map (· ++ "\n"))) = .ok s := by
  have hend : Puzzle.Decorates [] ['\n'] := Puzzle.decorates_nil (by decide)
  have hdecorates := s.decorates_drawingChars.append hend
  rw [List.append_nil] at hdecorates
  -- the lines put together are the drawing and the end of its last line
  have htext : String.join ((boardLines s).map (· ++ "\n")) =
      String.ofList (s.drawingChars ++ ['\n']) := by
    rw [← String.toList_inj, String.toList_join, String.toList_ofList, boardLines, List.map_append,
      List.flatMap_append, List.map_map, List.flatMap_map, Board.drawingChars]
    congr 1
    exact List.flatMap_congr fun l _ => by simp
  rw [htext]
  exact Board.parse_of_decorated hdecorates.decorated

/-- The answer of a solver is right. -/
def Answers (b : Board) : Option Board → Prop
  | some t => t.isSolutionOf b = true
  | none => ∀ t : Board, t.isSolutionOf b = false

/-- A right answer is a solution if there is one. -/
private theorem Answers.isSome_iff {solution : Option Board} (h : Answers b solution) :
    solution.isSome = true ↔ ∃ t : Board, t.isSolutionOf b = true := by
  cases solution with
  | some t => exact iff_of_true rfl ⟨t, h⟩
  | none =>
    refine iff_of_false Bool.false_ne_true ?_
    rintro ⟨t, ht⟩
    exact Bool.false_ne_true ((h t).symm.trans ht)

/-- A right answer stands the verdict. -/
theorem Answers.holds {solution : Option Board} (h : Answers b solution) :
    holds b solution = true := by
  cases solution with
  | some t => exact h
  | none => rfl

/-- The ways in which a report can end. The options for the verdict and for the statistics do not
    decide between them. -/
private theorem ofBoard_cases (o : Options) (label : Option String) (b : Board) :
    (∃ e s, (Solver.new o.method o.selection o.maxNodes).solveOne b = (.error e, s) ∧
      ∀ verify stats, ofBoard { o with verify, stats } label b =
        { lines := openingLines label b, failure := some (.search e) }) ∨
    ∃ solution s, (Solver.new o.method o.selection o.maxNodes).solveOne b = (.ok solution, s) ∧
      Answers b solution ∧ s.stats.solutions = (if solution.isSome then 1 else 0) ∧
      ((∃ e, uniqueness o b solution = .error e ∧
        ∀ verify stats, ofBoard { o with verify, stats } label b =
          { lines := openingLines label b ++ verdictLines { o with verify, stats } b solution
            failure := some (.search e) }) ∨
      ∃ unique, uniqueness o b solution = .ok unique ∧
        ∀ verify stats, ofBoard { o with verify, stats } label b =
          { lines := openingLines label b ++ (verdictLines { o with verify, stats } b solution ++
              (if stats then statsLines b s.lastShape s.stats else []) ++ uniqueLines unique ++
              solutionLines solution) }) := by
  -- what the solver says is right, whatever the limit
  have hcorrect := Solver.solveOne_correct o.method o.selection o.maxNodes b
  cases hx : (Solver.new o.method o.selection o.maxNodes).solveOne b with
  | mk result s =>
    rw [hx] at hcorrect
    cases result with
    -- the search has failed, and the report ends there
    | error e =>
      refine .inl ⟨e, s, rfl, fun verify stats => ?_⟩
      simp only [ofBoard, hx]
    | ok solution =>
      obtain ⟨hanswers, hcount⟩ : Answers b solution ∧
          s.stats.solutions = (if solution.isSome then 1 else 0) := by
        cases solution <;> exact hcorrect
      refine .inr ⟨solution, s, rfl, hanswers, hcount, ?_⟩
      -- the two options have no say in the count
      have hsame (verify stats : Bool) :
          uniqueness { o with verify, stats } b solution = uniqueness o b solution := rfl
      cases hunique : uniqueness o b solution with
      -- the count has failed, behind the verdict
      | error e =>
        refine .inl ⟨e, rfl, fun verify stats => ?_⟩
        simp [ofBoard, hx, Transcript.andThen, closing, hanswers.holds, hsame, hunique]
      -- all has succeeded
      | ok unique =>
        refine .inr ⟨unique, rfl, fun verify stats => ?_⟩
        simp [ofBoard, hx, Transcript.andThen, closing, hanswers.holds, hsame, hunique]

/-- The question is asked if the option is set and there is a solution. -/
private theorem uniqueness_of_ok {solution : Option Board} {unique : Option Bool}
    (h : uniqueness o b solution = .ok unique) :
    (unique.isSome = true ↔ o.checkUnique = true ∧ solution.isSome = true) ∧
      ∀ u, unique = some u → (u = true ↔ ∃! t : Board, t.isSolutionOf b = true) := by
  rw [uniqueness] at h
  split at h
  -- the question is asked, and the count decides it
  next hasked =>
    rw [Bool.and_eq_true] at hasked
    dsimp only at h
    cases hcount : (({ selection := o.selection, maxNodes := o.maxNodes } :
        CoverSolver).countSolutions b 2).1 with
    | error e =>
      rw [hcount] at h
      exact nomatch h
    | ok n =>
      rw [hcount] at h
      cases h
      refine ⟨iff_of_true rfl hasked, fun u hu => ?_⟩
      cases hu
      rw [decide_eq_true_iff]
      exact CoverSolver.count_eq_one_iff hcount
  -- the question is not asked
  next hasked =>
    cases h
    rw [Bool.and_eq_true] at hasked
    exact ⟨iff_of_false Bool.false_ne_true hasked, nofun⟩

/-- There is an answer to the question unless the count needs too many nodes. -/
private theorem exists_uniqueness_iff {solution : Option Board}
    (hover : uniqueness o b solution ≠ .error (.fault .overflow)) :
    (∃ unique, uniqueness o b solution = .ok unique) ↔
      (o.checkUnique = true → solution.isSome = true →
        Allows o.maxNodes (CoverSolver.nodesToCount o.selection b)) := by
  rw [uniqueness] at hover ⊢
  split
  -- asked: there is an answer where the count succeeds
  next hasked =>
    rw [if_pos hasked] at hover
    rw [Bool.and_eq_true] at hasked
    dsimp only at hover ⊢
    rw [← and_imp, forall_prop_of_true hasked,
      ← CoverSolver.exists_count_iff fun herror => hover (by rw [herror]; rfl)]
    cases (({ selection := o.selection, maxNodes := o.maxNodes } :
        CoverSolver).countSolutions b 2).1 <;> simp [Except.map]
  -- not asked: there is nothing that could fail
  next hasked =>
    rw [Bool.and_eq_true] at hasked
    exact iff_of_true ⟨none, rfl⟩ fun hunique hsome => absurd ⟨hunique, hsome⟩ hasked

/-- Where the question fails, the count has ended. -/
private theorem ended_of_uniqueness {solution : Option Board} {e : Halt}
    (h : uniqueness o b solution = .error e) : Ended o.maxNodes e := by
  rw [uniqueness] at h
  split at h
  · dsimp only at h
    cases hcount : (({ selection := o.selection, maxNodes := o.maxNodes } :
        CoverSolver).countSolutions b 2).1 with
    | error e' =>
      rw [hcount] at h
      cases h
      exact CoverSolver.ended_of_countSolutions hcount
    | ok n =>
      rw [hcount] at h
      exact nomatch h
  · exact nomatch h

/-- The solver may enter the nodes it needs, and so may the count of solutions if there is one and it
    is asked whether there are more. -/
def Affords (o : Options) (b : Board) : Prop :=
  Allows o.maxNodes (Solver.nodesNeeded o.method o.selection b) ∧
    (o.checkUnique = true → (∃ t : Board, t.isSolutionOf b = true) →
      Allows o.maxNodes (CoverSolver.nodesToCount o.selection b))

/-- The result of a run on the board `b` is true. -/
structure Faithful (o : Options) (b : Board) (r : Result) : Prop where
  /-- The run succeeds if the limit of nodes allows it. -/
  exit_eq_zero_iff : r.exit = 0 ↔ Affords o b
  /-- Otherwise it tells the limit. -/
  exit_eq_one : r.exit ≠ 0 → r.exit = 1 ∧ ∃ limit, o.maxNodes = some limit ∧
    r.stderr = [s!"Error: search aborted after visiting {limit} nodes"]
  stderr_eq_nil : r.exit = 0 → r.stderr = []
  /-- At the end stands a solution, or that there is none. -/
  ending : r.exit = 0 →
    (∃ before s, r.stdout = before ++ "Solution:" :: boardLines s ∧
      Puzzle.parse (String.join ((boardLines s).map (· ++ "\n"))) = .ok s ∧
      s.isSolutionOf b = true) ∨
    r.stdout.getLast? = some "No solution found"
  no_solution_iff : r.exit = 0 →
    (r.stdout.getLast? = some "No solution found" ↔ ∀ t : Board, t.isSolutionOf b = false)
  unique_iff : r.exit = 0 → ((∃ l ∈ r.stdout, "Unique:".toList <+: l.toList) ↔
    o.checkUnique = true ∧ ∃ t : Board, t.isSolutionOf b = true)
  unique_yes_iff : r.exit = 0 → ("Unique: yes" ∈ r.stdout ↔
    o.checkUnique = true ∧ ∃! t : Board, t.isSolutionOf b = true)
  /-- Lines on whether the puzzle is solved stand in the statistics and, if it is not, in the
      verdict. -/
  solved : r.exit = 0 → (∃ t : Board, t.isSolutionOf b = true) →
    r.stdout.count "SOLVED" = o.stats.toNat ∧ r.stdout.count "UNSOLVABLE" = 0
  unsolvable : r.exit = 0 → (∀ t : Board, t.isSolutionOf b = false) →
    r.stdout.count "SOLVED" = 0 ∧
      r.stdout.count "UNSOLVABLE" = o.verify.toNat + o.stats.toNat
  verified : "Verified: false" ∉ r.stdout

/-- The lines of the verdict that a right answer gets. -/
private theorem verdictLines_eq {solution : Option Board} (h : Answers b solution) :
    verdictLines o b solution =
      if o.verify then [if solution.isSome then "Verified: true" else "UNSOLVABLE"] else [] := by
  cases solution with
  | none => rfl
  | some t =>
    have hshown : s!"Verified: {holds b (some t)}" = "Verified: true" := by
      rw [h.holds]
      rfl
    simp only [verdictLines, hshown, Option.isSome_some, if_true]

/-- The signals of a report that has come to its end. -/
def signals (o : Options) (solved : Bool) (unique : Option Bool) : List String :=
  (if o.verify then [if solved then "Verified: true" else "UNSOLVABLE"] else []) ++
    (if o.stats then [if solved then "SOLVED" else "UNSOLVABLE"] else []) ++ uniqueLines unique

/-- The signals of a report stand in it in their order, each line of another kind apart. -/
theorem filter_lines {solution : Option Board} {stats : Stats} (h : Answers b solution)
    (hcount : stats.solutions = if solution.isSome then 1 else 0) (label : Option String)
    (shape : Option Shape) (unique : Option Bool) :
    (openingLines label b ++ (verdictLines o b solution ++
        (if o.stats then statsLines b shape stats else []) ++ uniqueLines unique ++
        solutionLines solution)).filter isSignal = signals o solution.isSome unique := by
  -- the verdict, if there is one, is a signal
  have hverdict : (verdictLines o b solution).filter isSignal = verdictLines o b solution := by
    rw [verdictLines_eq h, List.filter_eq_self]
    intro l hl
    split at hl
    · rw [List.mem_singleton.mp hl]
      split <;> decide
    · exact absurd hl List.not_mem_nil
  -- of the statistics the last line is one
  have hstats : (if o.stats then statsLines b shape stats else []).filter isSignal =
      if o.stats then [if solution.isSome then "SOLVED" else "UNSOLVABLE"] else [] := by
    split
    · rw [filter_statsLines, hcount]
      cases solution <;> rfl
    · rfl
  -- the answer to the question, if there is one, is a signal
  have hunique : (uniqueLines unique).filter isSignal = uniqueLines unique := by
    rcases unique with _ | _ | _ <;> decide
  rw [List.filter_append, List.filter_append, List.filter_append, List.filter_append,
    filter_openingLines, filter_solutionLines, hverdict, hstats, hunique, verdictLines_eq h,
    List.nil_append, List.append_nil, signals]

/-- The signals on whether the puzzle is solved agree. -/
private theorem count_signals (o : Options) (solved : Bool) (unique : Option Bool) :
    (signals o solved unique).count "SOLVED" = (if solved then o.stats.toNat else 0) ∧
      (signals o solved unique).count "UNSOLVABLE" =
        if solved then 0 else o.verify.toNat + o.stats.toNat := by
  -- no answer to the question is among these two words
  have hunique : (uniqueLines unique).count "SOLVED" = 0 ∧
      (uniqueLines unique).count "UNSOLVABLE" = 0 := by
    rcases unique with _ | _ | _ <;> decide
  simp only [signals, List.count_append, hunique]
  cases o.verify <;> cases o.stats <;> cases solved <;> decide

/-- What the signals say on whether there is only one solution. -/
private theorem mem_signals_iff {l : String} (hl : "Unique:".toList <+: l.toList) (solved : Bool)
    (unique : Option Bool) : l ∈ signals o solved unique ↔ l ∈ uniqueLines unique := by
  -- the other signals begin with other words
  have hother : ∀ l' ∈ ["Verified: true", "SOLVED", "UNSOLVABLE"], l ≠ l' := by
    rintro l' hl' rfl
    simp only [List.mem_cons, List.not_mem_nil, or_false] at hl'
    rcases hl' with rfl | rfl | rfl <;> revert hl <;> decide
  have hverdict : l ∉ (if o.verify then [if solved then "Verified: true" else "UNSOLVABLE"]
      else []) := by
    cases o.verify <;> cases solved <;> simp [hother]
  have hstats : l ∉ (if o.stats then [if solved then "SOLVED" else "UNSOLVABLE"] else []) := by
    cases o.stats <;> cases solved <;> simp [hother]
  rw [signals, List.mem_append, List.mem_append, or_iff_right (not_or.mpr ⟨hverdict, hstats⟩)]

/-- The verdict on a right answer is never that it is wrong. -/
private theorem not_mem_verdictLines {solution : Option Board} (h : Answers b solution) :
    "Verified: false" ∉ verdictLines o b solution := by
  rw [verdictLines_eq h]
  intro hmem
  split at hmem
  · rw [List.mem_singleton] at hmem
    revert hmem
    split <;> decide
  · exact List.not_mem_nil hmem

/-- A signal does not stand before the search. -/
private theorem not_mem_openingLines {l : String} (hsignal : isSignal l = true)
    (label : Option String) (b : Board) : l ∉ openingLines label b := fun hmem =>
  List.not_mem_nil (filter_openingLines label b ▸ List.mem_filter.mpr ⟨hmem, hsignal⟩)

/-- What the limit of nodes cuts short is faithful. -/
private theorem faithful_of_cutOff {lines : List String} {limit : Nat}
    (hlimit : o.maxNodes = some limit) (hneeds : ¬Affords o b)
    (hlines : "Verified: false" ∉ lines) :
    Faithful o b (.ofTranscript { lines, failure := some (.search (.nodeLimit limit)) }) where
  exit_eq_zero_iff := iff_of_false Nat.one_ne_zero hneeds
  exit_eq_one _ := ⟨rfl, limit, hlimit, rfl⟩
  stderr_eq_nil h := absurd h Nat.one_ne_zero
  ending h := absurd h Nat.one_ne_zero
  no_solution_iff h := absurd h Nat.one_ne_zero
  unique_iff h := absurd h Nat.one_ne_zero
  unique_yes_iff h := absurd h Nat.one_ne_zero
  solved h := absurd h Nat.one_ne_zero
  unsolvable h := absurd h Nat.one_ne_zero
  verified := hlines

/-- The text begins with the words of the answer on whether there is only one solution. -/
private theorem isSignal_of_unique {l : String} (h : "Unique:".toList <+: l.toList) :
    isSignal l = true := by
  -- two characters are enough to see it
  have htake := h.take 2
  have hlen : (l.toList.take 2).length ≤ ("Unique:".toList.take 2).length :=
    (List.length_take_le 2 _).trans (by decide)
  rw [isSignal, ← htake.eq_of_length_le hlen]
  decide

/-- What comes to its end is faithful. -/
private theorem faithful_of_answer {solution : Option Board} {unique : Option Bool}
    {before : List String} (hanswers : Answers b solution)
    (hunique : uniqueness o b solution = .ok unique) (hneeds : Affords o b)
    (hsignals :
      (before ++ solutionLines solution).filter isSignal = signals o solution.isSome unique) :
    Faithful o b (.ofTranscript { lines := before ++ solutionLines solution }) := by
  -- a signal stands in the report exactly as it stands among the signals
  have hmem {l : String} (hl : isSignal l = true) :
      l ∈ before ++ solutionLines solution ↔ l ∈ signals o solution.isSome unique := by
    rw [← hsignals, List.mem_filter, and_iff_left hl]
  have hcount {l : String} (hl : isSignal l = true) :
      (before ++ solutionLines solution).count l =
        (signals o solution.isSome unique).count l := by
    rw [← hsignals, List.count_filter hl]
  have hsolved : (before ++ solutionLines solution).count "SOLVED" =
      if solution.isSome then o.stats.toNat else 0 :=
    (hcount (by decide)).trans (count_signals o _ unique).1
  have hunsolvable : (before ++ solutionLines solution).count "UNSOLVABLE" =
      if solution.isSome then 0 else o.verify.toNat + o.stats.toNat :=
    (hcount (by decide)).trans (count_signals o _ unique).2
  -- what was asked and answered, in terms of the solutions of the board
  obtain ⟨hasked, hyes⟩ := uniqueness_of_ok hunique
  have hsome := hanswers.isSome_iff
  refine
    { exit_eq_zero_iff := iff_of_true rfl hneeds
      exit_eq_one := fun h => absurd rfl h
      stderr_eq_nil := fun _ => rfl
      ending := fun _ => ?ending
      no_solution_iff := fun _ => ?none
      unique_iff := fun _ => ?asked
      unique_yes_iff := fun _ => ?yes
      solved := fun _ h => ?solved
      unsolvable := fun _ h => ?unsolvable
      verified := ?verified }
  case ending =>
    -- a solution is printed and read back, or there is none
    cases solution with
    | none => exact .inr (by simp [Result.ofTranscript, solutionLines])
    | some s => exact .inl ⟨before, s, rfl, parse_boardLines s, hanswers⟩
  case none =>
    -- the last line tells there is no solution, or it ends the drawing of one
    cases solution with
    | none => exact iff_of_true (by simp [Result.ofTranscript, solutionLines]) hanswers
    | some s =>
      refine iff_of_false ?_ fun h => Bool.false_ne_true ((h s).symm.trans hanswers)
      -- an empty line ends a solution
      have hlast : (before ++ solutionLines (some s)).getLast? = some "" := by
        rw [solutionLines, boardLines, ← List.cons_append, ← List.append_assoc,
          List.getLast?_concat]
      show (before ++ solutionLines (some s)).getLast? ≠ _
      rw [hlast]
      decide
  case asked =>
    rw [← hsome, ← hasked]
    constructor
    -- a line on uniqueness stands in the report, so it has been asked for
    · rintro ⟨l, hl, hbegins⟩
      have hline : l ∈ uniqueLines unique :=
        (mem_signals_iff hbegins _ _).mp ((hmem (isSignal_of_unique hbegins)).mp hl)
      cases unique with
      | none => exact absurd hline List.not_mem_nil
      | some u => rfl
    -- what has been asked for has an answer, and its line stands in the report
    · intro h
      obtain ⟨u, rfl⟩ := Option.isSome_iff_exists.mp h
      obtain ⟨l, hl, hbegins⟩ : ∃ l ∈ uniqueLines (some u), "Unique:".toList <+: l.toList := by
        cases u
        · exact ⟨_, List.mem_singleton_self _, by decide⟩
        · exact ⟨_, List.mem_singleton_self _, by decide⟩
      exact ⟨l, (hmem (isSignal_of_unique hbegins)).mpr ((mem_signals_iff hbegins _ _).mpr hl),
        hbegins⟩
  case yes =>
    -- one line says yes, and it stands there if the answer is yes
    have hline : "Unique: yes" ∈ before ++ solutionLines solution ↔ unique = some true := by
      rw [hmem (by decide), mem_signals_iff (by decide)]
      rcases unique with _ | _ | _ <;> decide
    refine hline.trans ⟨?_, ?_⟩
    -- the answer yes is given if there is one solution only
    · rintro rfl
      exact ⟨(hasked.mp rfl).1, (hyes true rfl).mp rfl⟩
    -- if there is one solution only, the question asked has the answer yes
    · rintro ⟨hcheck, t, ht, hall⟩
      obtain ⟨u, rfl⟩ := Option.isSome_iff_exists.mp (hasked.mpr ⟨hcheck, hsome.mpr ⟨t, ht⟩⟩)
      rw [(hyes u rfl).mpr ⟨t, ht, hall⟩]
  case solved =>
    have hsolution := hsome.mpr h
    exact ⟨hsolved.trans (if_pos hsolution), hunsolvable.trans (if_pos hsolution)⟩
  case unsolvable =>
    have hsolution : ¬solution.isSome = true := fun hsolution => by
      obtain ⟨t, ht⟩ := hsome.mp hsolution
      exact Bool.false_ne_true ((h t).symm.trans ht)
    exact ⟨hsolved.trans (if_neg hsolution), hunsolvable.trans (if_neg hsolution)⟩
  case verified =>
    intro hverified
    have hline := (hmem (by decide)).mp hverified
    revert hline
    rw [signals]
    cases o.verify <;> cases o.stats <;> cases solution.isSome <;> rcases unique with _ | _ | _ <;>
      decide

/-- A report on a board is faithful, unless a counter is full. -/
theorem ofBoard_faithful
    (hover : (ofBoard o label b).failure ≠ some (.search (.fault .overflow))) :
    Faithful o b (.ofTranscript (ofBoard o label b)) := by
  rcases ofBoard_cases o label b with ⟨e, s, hx, hreport⟩ | ⟨solution, s, hx, hanswers, hcount, h⟩
  · -- the search gives up
    have hlines : ofBoard o label b = _ := hreport o.verify o.stats
    rw [hlines] at hover ⊢
    obtain ⟨limit, hlimit, rfl⟩ | rfl := Solver.ended_of_solveOne (congrArg Prod.fst hx)
    · -- with all the nodes it needs the solver would have given an answer
      refine faithful_of_cutOff hlimit (fun hneeds => ?_) (not_mem_openingLines (by decide) label b)
      obtain ⟨solution, hok⟩ := (Solver.exists_ok_iff (by rw [hx]; nofun)).mpr hneeds.1
      rw [hx] at hok
      exact nomatch hok
    · exact absurd rfl hover
  -- the search has an answer, so the limit allows the nodes it needs
  have hallows : Allows o.maxNodes (Solver.nodesNeeded o.method o.selection b) :=
    (Solver.exists_ok_iff (by rw [hx]; nofun)).mp ⟨solution, congrArg Prod.fst hx⟩
  have hsome := hanswers.isSome_iff
  rcases h with ⟨e, hunique, hreport⟩ | ⟨unique, hunique, hreport⟩
  · -- the count of solutions gives up
    have hlines : ofBoard o label b = { lines := openingLines label b ++ verdictLines o b solution
                                        failure := some (.search e) } :=
      hreport o.verify o.stats
    rw [hlines] at hover ⊢
    obtain ⟨limit, hlimit, rfl⟩ | rfl := ended_of_uniqueness hunique
    -- with all the nodes it needs the count would have had an answer
    · refine faithful_of_cutOff hlimit (fun hneeds => ?_) ?_
      · obtain ⟨unique, hok⟩ := (exists_uniqueness_iff (by rw [hunique]; nofun)).mpr
          fun hcheck hsolved => hneeds.2 hcheck (hsome.mp hsolved)
        exact nomatch hunique.symm.trans hok
      · rw [List.mem_append, not_or]
        exact ⟨not_mem_openingLines (by decide) label b, not_mem_verdictLines hanswers⟩
    · exact absurd rfl hover
  -- all has succeeded, so the report has come to its end
  · have hlines : ofBoard o label b =
        { lines := openingLines label b ++ (verdictLines o b solution ++
            (if o.stats then statsLines b s.lastShape s.stats else []) ++ uniqueLines unique ++
            solutionLines solution) } :=
      hreport o.verify o.stats
    have hneeds : o.checkUnique = true → (∃ t : Board, t.isSolutionOf b = true) →
        Allows o.maxNodes (CoverSolver.nodesToCount o.selection b) := fun hcheck hsolvable =>
      (exists_uniqueness_iff (by rw [hunique]; nofun)).mp ⟨unique, hunique⟩ hcheck
        (hsome.mpr hsolvable)
    rw [hlines, ← List.append_assoc]
    refine faithful_of_answer hanswers hunique ⟨hallows, hneeds⟩ ?_
    rw [List.append_assoc]
    exact filter_lines hanswers hcount label s.lastShape unique

/-- The options for the verdict and for the statistics add their lines and change nothing else. -/
theorem ofParsed_lines (o : Options) (label : Option String) (parsed : Except ParseError Board) :
    ∃ failure opening verdict statistics closing,
      (failure = none → ∃ unique solution, closing = uniqueLines unique ++ solutionLines solution) ∧
      ∀ verify stats, ofParsed { o with verify, stats } label parsed =
        { lines := opening ++ (if verify then verdict else []) ++
            (if stats then statistics else []) ++ closing
          failure } := by
  cases parsed with
  -- no puzzle, and no lines at all
  | error e =>
    exact ⟨some (.parse e), [], [], [], [], nofun, fun verify stats => by simp [ofParsed]⟩
  | ok b =>
    simp only [ofParsed]
    rcases ofBoard_cases o label b with ⟨e, s, -, hreport⟩ | ⟨solution, s, -, hanswers, -, h⟩
    -- the search has failed: no line depends on the options
    · refine ⟨some (.search e), openingLines label b, [], [], [], nofun, fun verify stats => ?_⟩
      simp [hreport]
    -- a verdict there is in all other cases, and it is that of a right answer
    obtain ⟨verdict, hverdict⟩ : ∃ verdict, ∀ verify stats,
        verdictLines { o with verify, stats } b solution = if verify then verdict else [] :=
      ⟨_, fun verify stats => verdictLines_eq hanswers⟩
    rcases h with ⟨e, -, hreport⟩ | ⟨unique, -, hreport⟩
    -- the count has failed: the verdict alone depends on the options
    · refine ⟨some (.search e), openingLines label b, verdict, [], [], nofun,
        fun verify stats => ?_⟩
      simp only [hreport, hverdict, ite_self, List.append_nil]
    -- to the end: the verdict and the statistics depend on them
    · refine ⟨none, openingLines label b, verdict, statsLines b s.lastShape s.stats, _,
        fun _ => ⟨unique, solution, rfl⟩, fun verify stats => ?_⟩
      simp only [hreport, hverdict, List.append_assoc]

end Report

open Report

/-- Runs on a text or on a file tell the truth. If the text is no puzzle, nothing but the reason is
    told. If it is, the result is faithful, unless a counter is full. The options for the verdict
    and for the statistics add their lines and change nothing else. -/
theorem run_reports (h : Poses lookup args o label parsed) :
    (∀ e, parsed = .error e →
      run lookup args = { exit := 1, stderr := [s!"Error: {e.message}"] }) ∧
    (∀ b, parsed = .ok b → (ofBoard o label b).failure ≠ some (.search (.fault .overflow)) →
      Faithful o b (run lookup args)) ∧
    ∃ exit stderr opening verdict statistics closing,
      (exit = 0 → ∃ unique solution, closing = uniqueLines unique ++ solutionLines solution) ∧
      ∀ verify stats lookup' args', Poses lookup' args' { o with verify, stats } label parsed →
        run lookup' args' =
          { exit
            stdout := opening ++ (if verify then verdict else []) ++
              (if stats then statistics else []) ++ closing
            stderr } := by
  refine ⟨?_, ?_, ?_⟩
  -- no puzzle
  · rintro e rfl
    rw [h.run_eq]
    rfl
  -- a puzzle
  · rintro b rfl hover
    rw [h.run_eq]
    exact ofBoard_faithful hover
  -- the lines that the options add
  · obtain ⟨failure, opening, verdict, statistics, closing, hclosing, hlines⟩ :=
      ofParsed_lines o label parsed
    cases failure with
    | none =>
      refine ⟨0, [], opening, verdict, statistics, closing, fun _ => hclosing rfl,
        fun verify stats lookup' args' h' => ?_⟩
      rw [h'.run_eq, hlines]
      rfl
    | some failure =>
      refine ⟨1, [s!"Error: {failure.message}"], opening, verdict, statistics, closing, nofun,
        fun verify stats lookup' args' h' => ?_⟩
      rw [h'.run_eq, hlines]
      rfl

/-- A puzzle in which no digits clash, but which has no solution. -/
theorem run_reports_unsolvable :
    let lookup : String → Except PathError Entry := fun _ => .error .notFound
    let input := "12345678....................................9...................................."
    let args := ["text", "--solver=backtracking", "--stats", "false", "--input", input]
    let o : Options := { method := .backtracking, stats := false }
    Poses lookup args o none (Puzzle.parse input) ∧ Puzzle.parse input = .ok stuck ∧
      Faithful o stuck (run lookup args) := by
  intro lookup input args o
  have hposes : Poses lookup args o none (Puzzle.parse input) := .text (by decide +kernel)
  have hparse : Puzzle.parse input = .ok stuck := by decide +kernel
  have hfailure : (ofBoard o none stuck).failure = none := by decide +kernel
  exact ⟨hposes, hparse, (run_reports hposes).2.1 stuck hparse (by rw [hfailure]; nofun)⟩

end ExactCover.CommandLine
