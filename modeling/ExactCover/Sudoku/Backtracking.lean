import ExactCover.Search.Halt
import ExactCover.Search.Stats
import ExactCover.Sudoku.Occupancy

/-!
# Solving by backtracking

A plain solver to compare with. It fills the empty cells row by row, tries the digits in
ascending order and goes back as soon as a cell has no digit left. So the first solution it
meets is the least one in the order of the cells.
-/

namespace ExactCover.Sudoku

/-- A board that is being filled. -/
structure Filling where
  board : Board
  /-- The digits in use on the board. -/
  occupancy : Occupancy
  stats : Stats := {}
  deriving DecidableEq

namespace Filling

/-- A computation that fills a board. If it fails, the board is left as it was then. -/
abbrev Run := EStateM Halt Filling

/-- Changes the counters. -/
@[inline] def count (f : Stats → Except Fault Stats) : Run Unit := do
  match f (← get).stats with
  | .ok stats => modify fun s => { s with stats }
  | .error cause => throw (.fault cause)

/-- Counts a node, and goes on only within the limit. -/
def enter (maxNodes : Option Nat) (depth : Nat) : Run Unit := do
  count (·.enter depth)
  if let some limit := (← get).stats.exceeds maxNodes then
    throw (.nodeLimit limit)

/-- Writes a digit into a cell. -/
def write (c : Cell) (d : Digit) : Run Unit :=
  modify fun s =>
    { s with board := s.board.set c (some d), occupancy := s.occupancy.place c d }

/-- Takes a digit back out of a cell. -/
def erase (c : Cell) (d : Digit) : Run Unit :=
  modify fun s =>
    { s with board := s.board.set c none, occupancy := s.occupancy.remove c d }

/-- Tries some digits in a cell, one after the other; `below` fills the cells that follow. The
    answer tells whether the board is full. -/
def tryDigits (below : Run Bool) (c : Cell) : List Digit → Run Bool
  | [] => return false
  | d :: digits => do
    if (← get).occupancy.allows c d then
      write c d
      if ← below then
        return true
      erase c d
      count (·.backtrack)
    tryDigits below c digits

/-- Fills the given empty cells. `depth` cells have been filled before. The answer tells whether
    that was possible; if not, the board is as before. -/
def fill (maxNodes : Option Nat) : List Cell → Nat → Run Bool
  | [], depth => do
    enter maxNodes depth
    count (·.solve)
    return true
  | c :: blanks, depth => do
    enter maxNodes depth
    tryDigits (fill maxNodes blanks (depth + 1)) c Digit.all

end Filling

/-- A solver that tries digits cell by cell. -/
structure BacktrackingSolver where
  maxNodes : Option Nat := none
  /-- The counters of the last call. -/
  stats : Stats := {}
  deriving DecidableEq, Repr, Inhabited

namespace BacktrackingSolver

/-- Finds the least solution of a puzzle, or none if there is none. Givens that clash are found
    without a search. -/
def solveOne (s : BacktrackingSolver) (b : Board) :
    Except Halt (Option Board) × BacktrackingSolver :=
  match Occupancy.ofBoard? b with
  | none => (.ok none, { s with stats := {} })
  | some occupancy =>
    let start : Filling := { board := b, occupancy }
    match EStateM.run (Filling.fill s.maxNodes b.blanks 0) start with
    | .ok full after =>
      (.ok (if full then some after.board else none), { s with stats := after.stats })
    | .error halt after => (.error halt, { s with stats := after.stats })

end BacktrackingSolver

end ExactCover.Sudoku
