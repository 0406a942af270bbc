import ExactCover.Matrix.Ring

/-!
# Choosing the column to branch on

The search is right whichever active column it branches on, but the size of its tree hangs on
the choice. A rule looks at the active columns in the order of their ring and at the size kept
for each.
-/

namespace ExactCover

/-- A rule that chooses an active column. -/
inductive Selection where
  /-- The column with the fewest rows, the first of them if there are several. -/
  | minimumSize
  /-- The first column with exactly one row, or the first column of all if there is none. -/
  | firstSingleton
  deriving DecidableEq, Repr, Inhabited

namespace Selection

/-- The name of a rule. -/
def name : Selection → String
  | minimumSize => "minimum-size"
  | firstSingleton => "first-singleton"

/-- The rule of a given name. -/
def ofName? (name : String) : Option Selection :=
  [minimumSize, firstSingleton].find? (·.name = name)

/-- The first column of least size among `best` and the columns that follow. Nothing beats an
    empty column, so the scan ends at the first one. -/
def scanMinimum (m : Matrix) : Option (Nat × Nat) → List Nat → Except Fault (Option Nat)
  | best, [] => .ok (best.map Prod.fst)
  | best, column :: columns => do
    let size ← m.columnSize column
    if size = 0 then
      return some column
    else if best.all (fun (_, least) => size < least) then
      scanMinimum m (some (column, size)) columns
    else
      scanMinimum m best columns

/-- The first column of size one. -/
def findSingleton (m : Matrix) : List Nat → Except Fault (Option Nat)
  | [] => .ok none
  | column :: columns => do
    if (← m.columnSize column) = 1 then return some column
    else findSingleton m columns

/-- The column that a rule chooses, or none if no column is active. -/
def select (rule : Selection) (m : Matrix) : Except Fault (Option Nat) := do
  let active ← m.activeColumns
  match rule with
  | minimumSize => scanMinimum m none active
  | firstSingleton =>
    match active with
    | [] => return none
    | first :: _ => return some ((← findSingleton m active).getD first)

end Selection

end ExactCover
