/-!
# Digits and cells

The nine digits and the 81 cells of a Sudoku. Rows, columns, boxes and digits are counted from
zero inside; a digit is shown by its value, which starts at one.
-/

namespace ExactCover.Sudoku

/-- One of the nine digits, counted from zero. -/
abbrev Digit := Fin 9

namespace Digit

/-- The value of a digit, from one to nine. -/
def value (d : Digit) : Nat := d.val + 1

/-- The digit of a given value. -/
def ofValue? (n : Nat) : Option Digit :=
  if h : 1 ≤ n ∧ n ≤ 9 then some ⟨n - 1, by omega⟩ else none

/-- The character that shows a digit. -/
def toChar (d : Digit) : Char := Char.ofNat ('0'.toNat + value d)

/-- All digits in ascending order. -/
def all : List Digit := List.finRange 9

end Digit

/-- A position on the board. -/
structure Cell where
  row : Fin 9
  col : Fin 9
  deriving DecidableEq, Repr

namespace Cell

/-- The number of a cell, row by row. -/
def index (c : Cell) : Fin 81 := ⟨9 * c.row + c.col, by omega⟩

/-- The cell of a number. -/
def ofIndex (i : Fin 81) : Cell := ⟨⟨i / 9, by omega⟩, ⟨i % 9, by omega⟩⟩

/-- The box a cell lies in. Boxes are counted from left to right and from top to bottom. -/
def box (c : Cell) : Fin 9 := ⟨c.row / 3 * 3 + c.col / 3, by omega⟩

/-- All cells, row by row. -/
def all : List Cell := (List.finRange 81).map ofIndex

@[simp] theorem ofIndex_index (c : Cell) : ofIndex c.index = c := by
  obtain ⟨⟨r, hr⟩, ⟨k, hk⟩⟩ := c
  simp only [index, ofIndex, mk.injEq, Fin.mk.injEq]
  omega

@[simp] theorem index_ofIndex (i : Fin 81) : (ofIndex i).index = i := by
  simp only [index, ofIndex, Fin.ext_iff]
  omega

end Cell

end ExactCover.Sudoku
