import ExactCover.Sudoku.Backtracking
import ExactCover.Sudoku.CoverSolver

/-!
# The two solvers behind one interface
-/

namespace ExactCover.Sudoku

/-- The way a puzzle is solved. -/
inductive Method where
  /-- By a search over the exact cover matrix. -/
  | cover
  /-- By trying digits cell by cell. -/
  | backtracking
  deriving DecidableEq, Repr, Inhabited

namespace Method

/-- The name of a method. -/
def name : Method → String
  | cover => "dlx"
  | backtracking => "backtracking"

/-- The method of a given name. -/
def ofName? (name : String) : Option Method :=
  [cover, backtracking].find? (·.name = name)

end Method

/-- A solver of either kind. -/
inductive Solver where
  | cover (solver : CoverSolver)
  | backtracking (solver : BacktrackingSolver)
  deriving DecidableEq, Repr

namespace Solver

/-- A new solver. The selection of columns means nothing to backtracking. -/
def new (method : Method) (selection : Selection) (maxNodes : Option Nat) : Solver :=
  match method with
  | .cover => .cover { selection, maxNodes }
  | .backtracking => .backtracking { maxNodes }

/-- The method of a solver. -/
def method : Solver → Method
  | cover _ => .cover
  | backtracking _ => .backtracking

/-- The counters of the last call. -/
def stats : Solver → Stats
  | cover s => s.stats
  | backtracking s => s.stats

/-- The shape of the matrix of the last call; only the search over a matrix has one. -/
def lastShape : Solver → Option Shape
  | cover s => s.lastShape
  | backtracking _ => none

/-- Finds a solution of a puzzle, or none if there is none. -/
def solveOne (s : Solver) (b : Board) : Except Halt (Option Board) × Solver :=
  match s with
  | cover s =>
    let (result, s) := s.solveOne b
    (result, cover s)
  | backtracking s =>
    let (result, s) := s.solveOne b
    (result, backtracking s)

end Solver

end ExactCover.Sudoku
