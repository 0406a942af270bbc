import ExactCover.Sudoku.Board.Basic

/-!
# Digits in use

For each row, column and box, the digits that are already in use there. A flag for every unit
and digit makes it cheap to ask whether a digit still fits into a cell, and a board is consistent
exactly if its givens can be placed one after the other.
-/

namespace ExactCover.Sudoku

/-- The digits in use in each row, column and box. -/
structure Occupancy where
  rows : Vector Bool 81
  cols : Vector Bool 81
  boxes : Vector Bool 81
  deriving DecidableEq, Repr

namespace Occupancy

/-- No digit is in use. -/
def empty : Occupancy where
  rows := Vector.replicate 81 false
  cols := Vector.replicate 81 false
  boxes := Vector.replicate 81 false

instance : Inhabited Occupancy := ⟨empty⟩

/-- The flag of a digit in a unit. -/
def bit (unit : Fin 9) (d : Digit) : Fin 81 := ⟨9 * unit + d, by omega⟩

/-- The digit is in use in neither the row nor the column nor the box of the cell. -/
def allows (o : Occupancy) (c : Cell) (d : Digit) : Bool :=
  !o.rows[bit c.row d] && !o.cols[bit c.col d] && !o.boxes[bit c.box d]

/-- Sets the three flags of a digit in a cell. -/
def mark (o : Occupancy) (c : Cell) (d : Digit) (used : Bool) : Occupancy where
  rows := o.rows.set (bit c.row d) used
  cols := o.cols.set (bit c.col d) used
  boxes := o.boxes.set (bit c.box d) used

/-- Takes a digit into use at a cell. -/
def place (o : Occupancy) (c : Cell) (d : Digit) : Occupancy := o.mark c d true

/-- Gives a digit free again. -/
def remove (o : Occupancy) (c : Cell) (d : Digit) : Occupancy := o.mark c d false

/-- Takes a digit into use if it still fits. -/
def place? (o : Occupancy) (c : Cell) (d : Digit) : Option Occupancy :=
  if o.allows c d then some (o.place c d) else none

/-- The digits in use on a board, or none if two of its givens clash. -/
def ofBoard? (b : Board) : Option Occupancy :=
  b.givens.foldlM (fun o (c, d) => o.place? c d) empty

end Occupancy

namespace Board

/-- No digit stands twice in a row, a column or a box. -/
def isConsistent (b : Board) : Bool := (Occupancy.ofBoard? b).isSome

/-- The board is complete and consistent. -/
def isSolved (b : Board) : Bool := b.isComplete && b.isConsistent

/-- The board is solved and keeps every given of the puzzle. -/
def isSolutionOf (b puzzle : Board) : Bool :=
  b.isSolved && puzzle.givens.all fun (c, d) => b.get c = some d

end Board

end ExactCover.Sudoku
