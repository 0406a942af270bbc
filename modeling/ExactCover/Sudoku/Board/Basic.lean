import ExactCover.Word
import ExactCover.Sudoku.Cell

/-!
# Boards

A board assigns to each of the 81 cells a digit or nothing. Any such assignment is a board, also
one in which digits clash: it just has no solution.
-/

namespace ExactCover.Sudoku

/-- A Sudoku board, its cells row by row. -/
structure Board where
  cells : Vector (Option Digit) 81
  deriving DecidableEq, Repr

namespace Board

/-- The board without digits. -/
def empty : Board := ⟨Vector.replicate 81 none⟩

instance : Inhabited Board := ⟨empty⟩

/-- The content of a cell. -/
def get (b : Board) (c : Cell) : Option Digit := b.cells[c.index]

/-- Changes the content of a cell. -/
def set (b : Board) (c : Cell) (d : Option Digit) : Board :=
  { b with cells := b.cells.set c.index d }

/-- The board with the given contents, row by row. Cells that the list does not reach are
    empty. -/
def ofList (cells : List (Option Digit)) : Board :=
  ⟨Vector.ofFn fun i => cells[i.val]?.join⟩

/-- The contents of all cells, row by row. -/
def toList (b : Board) : List (Option Digit) := b.cells.toList

@[simp] theorem get_set_self (b : Board) (c : Cell) (d : Option Digit) :
    (b.set c d).get c = d := by
  simp [get, set]

theorem get_set_ne (b : Board) {c c' : Cell} (d : Option Digit) (h : c ≠ c') :
    (b.set c d).get c' = b.get c' := by
  have hi : c.index.val ≠ c'.index.val := fun e => h <| by
    rw [← Cell.ofIndex_index c, Fin.ext e, Cell.ofIndex_index]
  simp [get, set, Vector.getElem_set_ne, hi]

/-! ## Filled cells -/

/-- The value of a cell content, zero for an empty cell. -/
def value : Option Digit → Nat
  | none => 0
  | some d => Digit.value d

/-- The value at a row and a column given as any numbers. -/
def valueAt (b : Board) (row col : Nat) : Except Fault Nat :=
  if h : row < 9 ∧ col < 9 then .ok (value (b.get ⟨⟨row, h.1⟩, ⟨col, h.2⟩⟩))
  else .error .outOfBounds

/-- The filled cells with their digits, row by row. -/
def givens (b : Board) : List (Cell × Digit) :=
  Cell.all.filterMap fun c => (b.get c).map (c, ·)

/-- The empty cells, row by row. -/
def blanks (b : Board) : List Cell :=
  Cell.all.filter fun c => (b.get c).isNone

/-- No cell is empty. -/
def isComplete (b : Board) : Bool := b.toList.all Option.isSome

end Board

end ExactCover.Sudoku
