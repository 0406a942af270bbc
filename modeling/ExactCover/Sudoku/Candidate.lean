import ExactCover.Sudoku.Board.Basic
import ExactCover.Sudoku.Constraint

/-!
# Candidates

A candidate is the placement of a digit in a cell. Every candidate that agrees with the givens
of a puzzle is a row of its matrix, with a one for each of the four constraints it satisfies.
-/

namespace ExactCover.Sudoku

/-- A digit, counted from one, at a row and a column, counted from zero. -/
structure Candidate where
  row : Nat
  col : Nat
  digit : Nat
  deriving DecidableEq, Repr

namespace Candidate

/-- The placement of a digit in a cell of the board. -/
def ofCell (c : Cell) (d : Digit) : Candidate where
  row := c.row
  col := c.col
  digit := Digit.value d

/-- The identifier of the matrix row of a candidate. -/
def rowId (p : Candidate) : Except Fault Nat := do
  let cell ← Word.add (← Word.mul p.row 9) p.col
  Word.sub (← Word.add (← Word.mul cell 9) p.digit) 1

/-- The candidate of a row identifier. -/
def ofRowId (id : Nat) : Candidate where
  row := id / 9 / 9
  col := id / 9 % 9
  digit := id % 9 + 1

/-- The four constraints a candidate satisfies: its row, its column, its box and its cell. -/
def constraints (p : Candidate) : Except Fault (List Constraint) := do
  let block ← boxIndex p.row p.col
  return [.row p.row p.digit, .column p.col p.digit, .box block p.digit, .cell p.row p.col]

/-- The matrix columns of the four constraints. -/
def columns (p : Candidate) : Except Fault (List Nat) := do
  (← p.constraints).mapM Constraint.matrixColumn

/-- The cell and the digit of a candidate that lies on the board. -/
def placement? (p : Candidate) : Option (Cell × Digit) := do
  let digit ← Digit.ofValue? p.digit
  if h : p.row < 9 ∧ p.col < 9 then
    return (⟨⟨p.row, h.1⟩, ⟨p.col, h.2⟩⟩, digit)
  else
    none

end Candidate

namespace Board

/-- The digits a cell of the puzzle may hold: its own, or any if it is empty. -/
def options (b : Board) (c : Cell) : List Digit :=
  match b.get c with
  | none => Digit.all
  | some d => [d]

/-- The candidates that agree with the givens, cell by cell. -/
def candidates (b : Board) : List Candidate :=
  Cell.all.flatMap fun c => (b.options c).map (Candidate.ofCell c)

end Board

end ExactCover.Sudoku
