import ExactCover.Word

/-!
# Counters of a search
-/

namespace ExactCover

/-- Counters of a search. -/
structure Stats where
  /-- The nodes of the search tree that were entered. -/
  nodes : Nat := 0
  /-- The columns that were covered. -/
  covers : Nat := 0
  /-- The rows that were tried and given up. -/
  backtracks : Nat := 0
  /-- The solutions that were found. -/
  solutions : Nat := 0
  /-- The largest number of choices made at the same time. -/
  maxDepth : Nat := 0
  deriving DecidableEq, Repr, Inhabited

namespace Stats

/-- Counts a node at the given depth. -/
def enter (s : Stats) (depth : Nat) : Except Fault Stats := do
  return { s with nodes := ← Word.add s.nodes 1, maxDepth := max s.maxDepth depth }

/-- Counts a covered column. -/
def cover (s : Stats) : Except Fault Stats := do
  return { s with covers := ← Word.add s.covers 1 }

/-- Counts a row given up. -/
def backtrack (s : Stats) : Except Fault Stats := do
  return { s with backtracks := ← Word.add s.backtracks 1 }

/-- Counts a solution. -/
def solve (s : Stats) : Except Fault Stats := do
  return { s with solutions := ← Word.add s.solutions 1 }

/-- The limit, if more nodes have been entered than it allows. -/
def exceeds (s : Stats) (maxNodes : Option Nat) : Option Nat :=
  maxNodes.filter (· < s.nodes)

end Stats

end ExactCover
