import ExactCover.Sudoku.Board.Basic

/-!
# Boards as rows of numbers

A board is read from rows of numbers, where zero stands for an empty cell. `Board.ofRows` takes
rows of any shape; `Board.ofBytes` takes nine rows of nine bytes, whose shape is right already.
Both report the first fault in reading order.
-/

namespace ExactCover.Sudoku

/-- Why rows of numbers are no board. Rows and columns are counted from zero. -/
inductive ShapeError where
  /-- There are not nine rows. -/
  | wrongRowCount (rows : Nat)
  /-- A row does not have nine cells. -/
  | wrongRowLength (row length : Nat)
  /-- A number is above nine. -/
  | valueOutOfRange (row col value : Nat)
  deriving DecidableEq, Repr

/-- The text shown for rows that are no board. -/
def ShapeError.message : ShapeError → String
  | wrongRowCount rows => s!"grid has {rows} rows, expected 9"
  | wrongRowLength row length => s!"row {row} has {length} cells, expected 9"
  | valueOutOfRange row col value =>
    s!"cell ({row}, {col}) holds {value}, expected a value in 0..=9"

namespace Board

/-- The content of the cell at a row and a column that a number stands for. -/
def readValue (row col value : Nat) : Except ShapeError (Option Digit) :=
  if value ≤ 9 then .ok (Digit.ofValue? value)
  else .error (.valueOutOfRange row col value)

/-- Reads one row, whose length is looked at before its values. -/
def readRow (row : Nat) (values : List Nat) : Except ShapeError (List (Option Digit)) :=
  if values.length = 9 then values.zipIdx.mapM fun (value, col) => readValue row col value
  else .error (.wrongRowLength row values.length)

/-- The board of some rows of numbers. -/
def ofRows (rows : List (List Nat)) : Except ShapeError Board :=
  if rows.length = 9 then do
    let cells ← rows.zipIdx.mapM fun (values, row) => readRow row values
    return ofList cells.flatten
  else .error (.wrongRowCount rows.length)

/-- The first number above nine in nine rows of nine bytes. -/
def firstOutOfRange (rows : Vector (Vector UInt8 9) 9) : Option ShapeError :=
  rows.toList.zipIdx.findSome? fun (values, row) =>
    (values.toList.zipIdx.find? fun (value, _) => 9 < value).map fun (value, col) =>
      .valueOutOfRange row col value.toNat

/-- The board of nine rows of nine bytes. -/
def ofBytes (rows : Vector (Vector UInt8 9) 9) : Except ShapeError Board :=
  match firstOutOfRange rows with
  | some error => .error error
  | none => .ok ⟨(rows.map fun values => values.map fun v => Digit.ofValue? v.toNat).flatten⟩

/-- The values of one row, zero for an empty cell. -/
def rowValues (b : Board) (row : Fin 9) : List Nat :=
  (List.finRange 9).map fun col => value (b.get ⟨row, col⟩)

/-- The values of all cells, row by row. -/
def toRows (b : Board) : List (List Nat) :=
  (List.finRange 9).map b.rowValues

end Board

end ExactCover.Sudoku
