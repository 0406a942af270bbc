import ExactCover.Search.Basic
import ExactCover.Sudoku.Reduction

/-!
# Solving by exact cover

A solver that turns a puzzle into its matrix and searches that. Each call builds a matrix of its
own, so one solver serves any number of puzzles; it keeps the counters of its last call, also of
one that was cut off.
-/

namespace ExactCover.Sudoku

/-- A solver that searches the matrix of a puzzle. -/
structure CoverSolver where
  selection : Selection := .minimumSize
  maxNodes : Option Nat := none
  /-- The counters of the last call. -/
  stats : Stats := {}
  /-- The shape of the matrix of the last call. -/
  lastShape : Option Shape := none
  deriving DecidableEq, Repr, Inhabited

namespace CoverSolver

/-- Runs a search over the matrix of a puzzle. -/
def search (s : CoverSolver) (b : Board) (x : Search.Run α) : Except Halt α × CoverSolver :=
  match b.matrix with
  | .error (.fault cause) => (.error (.fault cause), s)
  | .error _ => (.error (.fault .outOfBounds), s)
  | .ok matrix =>
    let shape := matrix.shape
    let start : Search := { matrix, selection := s.selection, maxNodes := s.maxNodes }
    let (result, after) := start.run x
    (result, { s with stats := after.stats, lastShape := some shape })

/-- Finds a solution of a puzzle, or none if there is none. -/
def solveOne (s : CoverSolver) (b : Board) : Except Halt (Option Board) × CoverSolver :=
  let (result, s) := s.search b Search.solveOne
  let board := do
    match ← result with
    | none => return none
    | some ids => return some (← Board.ofRowIds ids)
  (board, s)

/-- Counts the solutions of a puzzle, up to a limit. -/
def countSolutions (s : CoverSolver) (b : Board) (limit : Nat) :
    Except Halt Nat × CoverSolver :=
  let (result, s) := s.search b (Search.solveUpTo limit)
  (result.map List.length, s)

end CoverSolver

/-- A solution of the puzzle, found by the default solver. -/
def Board.solve (b : Board) : Option Board :=
  match (({} : CoverSolver).solveOne b).1 with
  | .ok solution => solution
  | .error _ => none

end ExactCover.Sudoku
