import ExactCover.Matrix.Cover
import ExactCover.Search.Halt
import ExactCover.Search.Stats
import ExactCover.Selection

/-!
# Searching for exact covers

A depth-first search over the rows of a matrix. At each node of the search tree

1. if no column is active, the rows chosen on the way form an exact cover;
2. otherwise a column is chosen by the selection rule and covered;
3. each row of this column is tried in turn: its other columns are covered, the search goes on
   below, and the columns are uncovered in the opposite order;
4. at last the chosen column is uncovered.

Every cover is undone by an uncover in the opposite order, so a search that has gone through the
whole tree leaves the matrix as it found it. When as many exact covers have been found as were
asked for, the search stops at once and undoes nothing.
-/

namespace ExactCover

/-- A search over a matrix, which may be asked for exact covers several times. -/
structure Search where
  matrix : Matrix
  selection : Selection
  /-- The number of nodes the search may enter, over all its runs. -/
  maxNodes : Option Nat
  /-- The entries chosen on the way to the present node, the latest first. -/
  chosen : List Nat := []
  /-- The exact covers of the present run, the latest last. -/
  found : Array (List Nat) := #[]
  /-- The number of exact covers asked for. -/
  wanted : Nat := 0
  stats : Stats := {}
  /-- A run stopped at a solution or was cut off, so the matrix was not restored. -/
  spent : Bool := false
  deriving DecidableEq

namespace Search

/-- A computation of a search. If it fails, the search is left as it was at that moment. -/
abbrev Run := EStateM Halt Search

/-- How the tree below a node was left. -/
inductive Outcome where
  /-- The whole tree was seen. -/
  | exhausted
  /-- As many exact covers as asked for have been found. -/
  | stopped
  deriving DecidableEq, Repr

/-- Brings a failed operation on links or counters into a search. -/
@[inline] def lift (x : Except Fault α) : Run α :=
  match x with
  | .ok a => pure a
  | .error cause => throw (.fault cause)

/-- Changes the counters. -/
@[inline] def count (f : Stats → Except Fault Stats) : Run Unit := do
  let stats ← lift (f (← get).stats)
  modify fun s => { s with stats }

/-- Asks the matrix. -/
@[inline] def ask (f : Matrix → Except Fault α) : Run α := do
  lift (f (← get).matrix)

/-- Changes the matrix. -/
@[inline] def onMatrix (f : Matrix → Except Fault Matrix) : Run Unit := do
  let matrix ← ask f
  modify fun s => { s with matrix }

/-- Counts a node, and goes on only within the limit and on sound links. -/
def enter (depth : Nat) : Run Unit := do
  count (·.enter depth)
  if let some limit := (← get).stats.exceeds (← get).maxNodes then
    throw (.nodeLimit limit)
  match (← get).matrix.check with
  | .ok () => return ()
  | .error (.fault cause) => throw (.fault cause)
  | .error error => throw (.broken error)

/-- Covers a column and counts it. -/
def coverColumn (column : Nat) : Run Unit := do
  count (·.cover)
  onMatrix (·.cover column)

/-- Uncovers a column. -/
def uncoverColumn (column : Nat) : Run Unit :=
  onMatrix (·.uncover column)

/-- Keeps the rows chosen as an exact cover. -/
def record : Run Outcome := do
  let chosen := (← get).chosen.reverse
  let rows ← ask fun m => chosen.mapM m.rowOf
  modify fun s => { s with found := s.found.push rows }
  count (·.solve)
  let s ← get
  return if s.wanted ≤ s.found.size then .stopped else .exhausted

/-- Tries the rows of a column from the entry `row` down until the header `head` is reached, in
    so many steps at most. `below` searches the tree below a choice. -/
def tryRows (below : Run Outcome) (head : Nat) : Nat → Nat → Run Outcome
  | 0, _ => throw (.fault .endless)
  | steps + 1, row => do
    if row = head then
      return .exhausted
    modify fun s => { s with chosen := row :: s.chosen }
    let others ← ask (·.otherColumns row)
    others.forM coverColumn
    match ← below with
    | .stopped => return .stopped
    | .exhausted =>
      others.reverse.forM uncoverColumn
      modify fun s => { s with chosen := s.chosen.tail }
      count (·.backtrack)
      let entry ← ask (·.node row)
      tryRows below head steps entry.down

/-- Searches the tree below a node at the given depth. The first argument bounds the depth. -/
def visit : Nat → Nat → Run Outcome
  | 0, _ => throw (.fault .endless)
  | fuel + 1, depth => do
    enter depth
    if (← get).matrix.isSolved then
      return ← record
    let some column ← ask (← get).selection.select | return .exhausted
    if (← ask (·.columnSize column)) = 0 then
      return .exhausted
    coverColumn column
    let head ← lift (Matrix.headerOf column)
    let first := (← ask (·.node head)).down
    match ← tryRows (visit fuel (depth + 1)) head (← get).matrix.nodes.size first with
    | .stopped => return .stopped
    | .exhausted =>
      uncoverColumn column
      return .exhausted

/-- Searches the whole tree. Every level of the tree counts a node and the counter is a word, so
    no branch is as deep as words have values. -/
def visitRoot : Run Outcome :=
  visit wordBound 0

/-- Bars all later runs. -/
def spend : Run Unit :=
  modify fun s => { s with spent := true }

/-- Finds up to `max` exact covers in the order of the search. Each is given by the identifiers
    of its rows in the order chosen. After fewer than `max` the whole tree has been seen and the
    matrix is as before; otherwise the search cannot be used again. -/
def solveUpTo (max : Nat) : Run (List (List Nat)) := do
  if (← get).spent then
    throw .spent
  if max = 0 then
    return []
  modify fun s => { s with wanted := max }
  match ← tryCatch visitRoot fun halt => do spend; throw halt with
  | .exhausted => pure ()
  | .stopped => spend
  let found := (← get).found
  modify fun s => { s with found := #[] }
  return found.toList

/-- Finds the first exact cover. -/
def solveOne : Run (Option (List Nat)) := do
  return (← solveUpTo 1).getLast?

/-- The outcome of a run, and the search after it. -/
def run (s : Search) (x : Run α) : Except Halt α × Search :=
  match EStateM.run x s with
  | .ok a s => (.ok a, s)
  | .error halt s => (.error halt, s)

end Search

end ExactCover
