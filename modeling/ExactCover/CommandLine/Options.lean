import ExactCover.Sudoku.Solver

/-!
# Options of a run
-/

namespace ExactCover.CommandLine

open Sudoku (Method)

/-- What the user may set for a run. -/
structure Options where
  /-- Say whether the solution was checked. -/
  verify : Bool := true
  /-- Print the statistics. -/
  stats : Bool := true
  /-- Look for a second solution, too. -/
  checkUnique : Bool := false
  method : Method := .cover
  selection : Selection := .minimumSize
  maxNodes : Option Nat := none
  deriving DecidableEq, Repr, Inhabited

end ExactCover.CommandLine
