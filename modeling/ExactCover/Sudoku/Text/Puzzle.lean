import ExactCover.Sudoku.Board.Basic
import ExactCover.Sudoku.Text.Blank

/-!
# Puzzles as text

The format is loose, so that most collections of puzzles can be read as they are:

* a line whose first character that is not blank is `c` or `#` is a comment;
* elsewhere the digits `1` to `9` are givens, and `0`, `.` and `_` are empty cells;
* blanks and the characters `|`, `-` and `+` are skipped.

There must be 81 cells in all. Lines end at a line feed and at nothing else. The first fault in
the order of the lines is reported. A line that is no valid UTF-8 is a fault of its own, which
shows before anything else on that line and also if the line is a comment.
-/

namespace ExactCover.Sudoku

/-- Why a text is no puzzle. -/
inductive ParseError where
  /-- A character that has no place in a puzzle, after so many cells. -/
  | invalidCharacter (position : Nat) (ch : Char)
  /-- The number of cells is not 81. -/
  | wrongCellCount (cells : Nat)
  /-- The text could not be read. -/
  | unreadable (reason : String)
  deriving DecidableEq, Repr

/-- The text shown for a text that is no puzzle. -/
def ParseError.message : ParseError → String
  | invalidCharacter position ch => s!"invalid character '{ch}' at cell {position}"
  | wrongCellCount cells => s!"puzzle contains {cells} cells instead of 81"
  | unreadable reason => s!"unable to read puzzle: {reason}"

/-- The reason given for a line that is no valid UTF-8. -/
def invalidUtf8 : ParseError := .unreadable "stream did not contain valid UTF-8"

/-- What a character of a puzzle says. -/
inductive Glyph where
  /-- A given or an empty cell. -/
  | cell (content : Option Digit)
  /-- A character between cells. -/
  | filler
  deriving DecidableEq, Repr

/-- What a character says, if it has a place in a puzzle. -/
def Glyph.ofChar? (c : Char) : Option Glyph :=
  if '1' ≤ c ∧ c ≤ '9' then some (.cell (Digit.ofValue? (c.toNat - '0'.toNat)))
  else if c = '0' ∨ c = '.' ∨ c = '_' then some (.cell none)
  else if c = '|' ∨ c = '-' ∨ c = '+' then some .filler
  else if isBlank c then some .filler
  else none

namespace Puzzle

/-- The line is a comment. -/
def isComment (line : List Char) : Bool :=
  match line.dropWhile isBlank with
  | c :: _ => c = 'c' || c = '#'
  | [] => false

/-- The cells written in some characters of a line, which follow after `position` cells. -/
def lineCells (position : Nat) : List Char → Except ParseError (List (Option Digit))
  | [] => .ok []
  | c :: line =>
    match Glyph.ofChar? c with
    | none => .error (.invalidCharacter position c)
    | some .filler => lineCells position line
    | some (.cell content) => do
      let rest ← lineCells (position + 1) line
      return content :: rest

/-- The cells written in some lines, which follow after `position` cells. A line that is no
    valid UTF-8 is given as `none`. -/
def cells (position : Nat) : List (Option (List Char)) → Except ParseError (List (Option Digit))
  | [] => .ok []
  | none :: _ => .error invalidUtf8
  | some line :: lines =>
    if isComment line then cells position lines
    else do
      let here ← lineCells position line
      let rest ← cells (position + here.length) lines
      return here ++ rest

/-- The board written in some lines. -/
def ofLines (lines : List (Option (List Char))) : Except ParseError Board := do
  let contents ← cells 0 lines
  if contents.length = 81 then return Board.ofList contents
  else throw (.wrongCellCount contents.length)

/-- The pieces of a list between the places where `sep` stands. After the last `sep` an empty
    piece is no piece. -/
def splitAfter [DecidableEq α] (sep : α) : List α → List (List α)
  | [] => []
  | a :: rest =>
    if a = sep then [] :: splitAfter sep rest
    else match splitAfter sep rest with
      | [] => [[a]]
      | piece :: pieces => (a :: piece) :: pieces

/-- The board written in a text. -/
def parse (text : String) : Except ParseError Board :=
  ofLines ((splitAfter '\n' text.toList).map some)

/-- The characters of some bytes, if they are valid UTF-8. -/
def decode (bytes : List UInt8) : Option (List Char) :=
  (String.fromUTF8? ⟨bytes.toArray⟩).map String.toList

/-- The board written in some bytes. -/
def parseBytes (bytes : ByteArray) : Except ParseError Board :=
  ofLines ((splitAfter 10 bytes.data.toList).map decode)

end Puzzle

end ExactCover.Sudoku
