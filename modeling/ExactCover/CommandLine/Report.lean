import ExactCover.CommandLine.Options
import ExactCover.Sudoku.Board.Text
import ExactCover.Sudoku.Text.Puzzle

/-!
# The report on a puzzle

Everything that is printed about one puzzle, as a list of lines, and the failure that cut the
report short, if there was one. A puzzle without solution is no failure.

Times and amounts of memory depend on the machine. A star stands for them.
-/

namespace ExactCover.CommandLine

open Sudoku

/-- Why a run fails. -/
inductive Failure where
  /-- The text is no puzzle. -/
  | parse (error : ParseError)
  /-- The search gave up. -/
  | search (halt : Halt)
  /-- The solution found does not solve the puzzle. -/
  | verification
  deriving DecidableEq, Repr

/-- The text shown for a failure. -/
def Failure.message : Failure → String
  | parse error => error.message
  | search halt => halt.message.getD "search failed"
  | verification => "solution failed verification"

/-- What has been printed, and the failure that ended it. -/
structure Transcript where
  lines : List String := []
  failure : Option Failure := none
  deriving DecidableEq, Repr, Inhabited

/-- A transcript and what follows it. After a failure nothing follows. -/
def Transcript.andThen (t : Transcript) (rest : Unit → Transcript) : Transcript :=
  match t.failure with
  | some _ => t
  | none =>
    let t' := rest ()
    { t' with lines := t.lines ++ t'.lines }

namespace Report

/-! ## Tables -/

/-- A text filled up with blanks on the right. -/
def padRight (width : Nat) (s : String) : String :=
  s ++ String.ofList (List.replicate (width - s.length) ' ')

/-- A text filled up with blanks on the left. -/
def padLeft (width : Nat) (s : String) : String :=
  String.ofList (List.replicate (width - s.length) ' ') ++ s

/-- A line of the statistics. -/
def statLine (label : String) (value : Nat) : String :=
  s!"|  {padRight 28 label} {padLeft 18 (toString value)}  |"

/-- A line of the statistics for a counter and its rate. -/
def rateLine (label : String) (value : Nat) : String :=
  s!"|  {padRight 20 label} {padLeft 12 (toString value)} (*)"

/-- A line of the statistics for a figure of the machine. -/
def machineLine (label : String) : String := s!"|  {label} *"

/-- A heading without title. -/
def ruleLine : String := String.ofList (List.replicate 69 '=')

/-! ## Parts of a report -/

/-- The drawing of a board, followed by an empty line. -/
def boardLines (b : Board) : List String :=
  b.drawingLines.map String.ofList ++ [""]

/-- What comes before the puzzle is solved. -/
def openingLines (label : Option String) (b : Board) : List String :=
  (label.map fun path => s!"Solving: {path}").toList ++ "Parsed Sudoku:" :: boardLines b

/-- The solution, if there is one, solves the puzzle. -/
def holds (b : Board) (solution : Option Board) : Bool :=
  solution.all fun s => s.isSolutionOf b

/-- Whether the solution was found to be right. -/
def verdictLines (o : Options) (b : Board) (solution : Option Board) : List String :=
  if o.verify then
    match solution with
    | none => ["UNSOLVABLE"]
    | some _ => [s!"Verified: {holds b solution}"]
  else []

/-- Whether the solution is the only one, if that is asked and there is one. -/
def uniqueness (o : Options) (b : Board) (solution : Option Board) :
    Except Halt (Option Bool) :=
  if o.checkUnique && solution.isSome then
    let solver : CoverSolver := { selection := o.selection, maxNodes := o.maxNodes }
    (solver.countSolutions b 2).1.map fun n => some (n = 1)
  else .ok none

/-- The answer to the question whether the solution is the only one. -/
def uniqueLines (unique : Option Bool) : List String :=
  match unique with
  | none => []
  | some true => ["Unique: yes"]
  | some false => ["Unique: no"]

/-- The lines on the shape of a matrix. -/
def shapeLines (shape : Option Shape) : List String :=
  match shape with
  | none => []
  | some shape =>
    [statLine "Matrix columns" shape.columns, statLine "Matrix rows" shape.rows,
      statLine "Matrix nodes" shape.nodes]

/-- The statistics of a puzzle and of its search. -/
def statsLines (b : Board) (shape : Option Shape) (stats : Stats) : List String :=
  ["", "=======================[ Problem Statistics ]=========================",
    machineLine "Parse time (s)", statLine "Givens" b.givens.length]
  ++ shapeLines shape ++
  ["========================[ Search Statistics ]========================",
    rateLine "Nodes" stats.nodes, rateLine "Covers" stats.covers,
    rateLine "Backtracks" stats.backtracks, statLine "Max depth" stats.maxDepth,
    machineLine "Memory usage (MiB)", machineLine "Resident memory (MiB)",
    machineLine "CPU time (s)", ruleLine, "",
    if 0 < stats.solutions then "SOLVED" else "UNSOLVABLE"]

/-- The solution itself. -/
def solutionLines (solution : Option Board) : List String :=
  match solution with
  | some s => "Solution:" :: boardLines s
  | none => ["No solution found"]

/-- The lines that follow once the search has come to an end. -/
def closing (o : Options) (b : Board) (solver : Solver) (solution : Option Board) :
    Transcript :=
  let verdict := verdictLines o b solution
  if o.verify && !holds b solution then { lines := verdict, failure := some .verification }
  else
    match uniqueness o b solution with
    | .error halt => { lines := verdict, failure := some (.search halt) }
    | .ok unique =>
      let stats := if o.stats then statsLines b solver.lastShape solver.stats else []
      { lines := verdict ++ stats ++ uniqueLines unique ++ solutionLines solution }

/-- Solves a puzzle and reports on it. A puzzle from a file is labelled by its path. -/
def ofBoard (o : Options) (label : Option String) (b : Board) : Transcript :=
  let opening : Transcript := { lines := openingLines label b }
  match (Solver.new o.method o.selection o.maxNodes).solveOne b with
  | (.error halt, _) => { opening with failure := some (.search halt) }
  | (.ok solution, solver) => opening.andThen fun _ => closing o b solver solution

/-- The report on what was read as a puzzle. -/
def ofParsed (o : Options) (label : Option String) (puzzle : Except ParseError Board) :
    Transcript :=
  match puzzle with
  | .error error => { failure := some (.parse error) }
  | .ok b => ofBoard o label b

end Report

end ExactCover.CommandLine
