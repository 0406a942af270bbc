import ExactCover.Sudoku.Board.Basic

/-!
# Printed boards

A board has two printed forms: the *line*, one character for each cell, and the *drawing*, nine
lines in which bars and rules keep the boxes apart.
-/

namespace ExactCover.Sudoku.Board

/-- The character of a cell. -/
def glyph : Option Digit → Char
  | none => '.'
  | some d => Digit.toChar d

/-- The characters of the line of a board. -/
def lineChars (b : Board) : List Char := b.toList.map glyph

/-- The board as a line of 81 characters. -/
def line (b : Board) : String := String.ofList b.lineChars

/-- The rule between two bands of boxes. -/
def rule : List Char := "------+-------+------".toList

/-- Three cells of a row that lie in one box, with blanks between them. -/
def boxChars (b : Board) (row : Fin 9) (block : Fin 3) : List Char :=
  (List.finRange 3).map (fun i : Fin 3 => [glyph (b.get ⟨row, ⟨3 * block + i, by omega⟩⟩)])
    |> List.intercalate [' ']

/-- One row of a drawing, without the end of the line. -/
def rowChars (b : Board) (row : Fin 9) : List Char :=
  (List.finRange 3).map (b.boxChars row) |> List.intercalate [' ', '|', ' ']

/-- The lines of a drawing. A rule stands before the fourth and the seventh row. -/
def drawingLines (b : Board) : List (List Char) :=
  (List.finRange 9).flatMap fun row =>
    if row.val ≠ 0 ∧ row.val % 3 = 0 then [rule, b.rowChars row] else [b.rowChars row]

/-- The characters of a drawing. Every line is ended. -/
def drawingChars (b : Board) : List Char :=
  b.drawingLines.flatMap fun line => line ++ ['\n']

/-- The board as a drawing. -/
def drawing (b : Board) : String := String.ofList b.drawingChars

end ExactCover.Sudoku.Board
