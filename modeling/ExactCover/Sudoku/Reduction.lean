import ExactCover.Matrix.AddRow
import ExactCover.Search.Halt
import ExactCover.Sudoku.Candidate

/-!
# Sudoku as exact cover

The matrix of a puzzle has a column for each constraint and a row for each candidate. The exact
covers of this matrix are the solutions of the puzzle. Givens that clash need no care: the
matrix then has no exact cover.
-/

namespace ExactCover.Sudoku

/-- The matrix row of a candidate. -/
def Candidate.matrixRow (p : Candidate) : Except RowError (Nat × List Nat) :=
  match p.rowId, p.columns with
  | .ok id, .ok columns => .ok (id, columns)
  | .error cause, _ => .error (.fault cause)
  | _, .error cause => .error (.fault cause)

namespace Board

/-- The matrix of a puzzle. -/
def matrix (b : Board) : Except RowError Matrix := do
  Matrix.ofRows constraintCount (← b.candidates.mapM Candidate.matrixRow)

/-- Writes the digit of a row identifier into its cell. -/
def write (b : Board) (id : Nat) : Except Fault Board :=
  match (Candidate.ofRowId id).placement? with
  | some (c, d) => .ok (b.set c (some d))
  | none => .error .outOfBounds

/-- The board that the rows of an exact cover describe. There must be one row for each cell. -/
def ofRowIds (ids : List Nat) : Except Halt Board :=
  if ids.length = 81 then
    match ids.foldlM write empty with
    | .ok b => .ok b
    | .error cause => .error (.fault cause)
  else .error (.coverLength ids.length)

end Board

end ExactCover.Sudoku
