import ExactCover.Word

/-!
# Constraints of Sudoku

A solved board satisfies 324 constraints, and each of them is a column of the matrix of a
puzzle. They come in four families of 81:

* columns `0` to `80`: a row contains a digit;
* columns `81` to `161`: a column of the board contains a digit;
* columns `162` to `242`: a box contains a digit;
* columns `243` to `323`: a cell is filled.

Units are counted from zero and digits from one. The numbers are words of any size, so the
number of a column may not fit a word.
-/

namespace ExactCover.Sudoku

/-- The box of the cell at a row and a column. -/
def boxIndex (row col : Nat) : Except Fault Nat := do
  Word.add (← Word.mul (row / 3) 3) (col / 3)

/-- The number of constraints. -/
def constraintCount : Nat := 324

/-- A condition that exactly one placement of a solved board satisfies. -/
inductive Constraint where
  /-- The row contains the digit. -/
  | row (row digit : Nat)
  /-- The column of the board contains the digit. -/
  | column (col digit : Nat)
  /-- The box contains the digit. -/
  | box (block digit : Nat)
  /-- The cell is filled. -/
  | cell (row col : Nat)
  deriving DecidableEq, Repr

namespace Constraint

/-- The matrix column for a digit in a unit, in the family whose columns begin at `first`. -/
def digitColumn (first unit digit : Nat) : Except Fault Nat := do
  Word.sub (← Word.add (← Word.add first (← Word.mul unit 9)) digit) 1

/-- The matrix column of a constraint. -/
def matrixColumn : Constraint → Except Fault Nat
  | row r d => digitColumn 0 r d
  | column c d => digitColumn 81 c d
  | box b d => digitColumn 162 b d
  | cell r c => do Word.add (← Word.add 243 (← Word.mul r 9)) c

/-- The constraint of a matrix column, if there is one. -/
def ofMatrixColumn? (n : Nat) : Option Constraint :=
  let unit := n % 81 / 9
  let last := n % 9
  if n < 81 then some (row unit (last + 1))
  else if n < 162 then some (column unit (last + 1))
  else if n < 243 then some (box unit (last + 1))
  else if n < constraintCount then some (cell unit last)
  else none

/-- A constraint in words. -/
def text : Constraint → String
  | row r d => s!"row {r} has a {d}"
  | column c d => s!"column {c} has a {d}"
  | box b d => s!"box {b} has a {d}"
  | cell r c => s!"cell ({r}, {c}) is filled"

end Constraint

end ExactCover.Sudoku
