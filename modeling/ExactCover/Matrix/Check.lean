import ExactCover.Matrix.Ring

/-!
# Checking the links of a matrix

`Matrix.check` follows every link that can be reached from the root through active headers: the
ring of the headers, the ring of each active column and the ring of each row met there. It tests
that each step is undone by the step back, that the nodes of a column belong to it, and that the
size kept for a column is the number of nodes found.
-/

namespace ExactCover

/-- The first fault found in the links of a matrix. -/
inductive LinkError where
  /-- The right neighbour of the node does not point back to it. -/
  | brokenHorizontal (node : Nat)
  /-- The lower neighbour of the node does not point back to it. -/
  | brokenVertical (node : Nat)
  /-- A ring has not come back to its start after as many steps as there are nodes. -/
  | unterminated (node : Nat)
  /-- The node stands in the ring of a column it does not belong to. -/
  | foreign (node column : Nat)
  /-- The size kept for the column is not the number of nodes in its ring. -/
  | sizeMismatch (column recorded actual : Nat)
  /-- A link could not be followed. -/
  | fault (cause : Fault)
  deriving DecidableEq, Repr

/-- The text shown for a link error; a fault has none. -/
def LinkError.message : LinkError → Option String
  | brokenHorizontal node => s!"horizontal links around node {node} are not symmetric"
  | brokenVertical node => s!"vertical links around node {node} are not symmetric"
  | unterminated node => s!"ring through node {node} never returns to its start"
  | foreign node column => s!"node {node} is linked into column {column} but belongs elsewhere"
  | sizeMismatch column recorded actual =>
    s!"column {column} records {recorded} rows but links {actual}"
  | fault _ => none

namespace Matrix

/-- The outcome of an operation on links as the outcome of a check. -/
@[inline] def checked (x : Except Fault α) : Except LinkError α :=
  match x with
  | .ok a => .ok a
  | .error cause => .error (.fault cause)

/-- The right neighbour of a node, which must point back to it. -/
@[inline] def stepRight (m : Matrix) (id : Nat) : Except LinkError Nat := do
  let next := (← checked (m.node id)).right
  if (← checked (m.node next)).left = id then return next
  else throw (.brokenHorizontal id)

/-- The lower neighbour of a node, which must point back to it. -/
@[inline] def stepDown (m : Matrix) (id : Nat) : Except LinkError Nat := do
  let next := (← checked (m.node id)).down
  if (← checked (m.node next)).up = id then return next
  else throw (.brokenVertical id)

/-- Follows a horizontal ring from `id` to the right until it is back at `start`, in so many
    steps at most. -/
def checkRightFrom (m : Matrix) (start : Nat) : Nat → Nat → Except LinkError Unit
  | 0, id => .error (.unterminated id)
  | steps + 1, id => do
    let next ← m.stepRight id
    if next = start then return ()
    else checkRightFrom m start steps next

/-- Checks the horizontal ring through a node. No ring has more nodes than the matrix. -/
def checkRing (m : Matrix) (start : Nat) : Except LinkError Unit :=
  m.checkRightFrom start m.nodes.size start

/-- Follows the ring of a column from `id` down until it is back at the header, over so many
    entries at most, and checks the row of each entry. `count` entries have been met before. -/
def checkDownFrom (m : Matrix) (column head : Nat) :
    Nat → Nat → Nat → Except LinkError Nat
  | steps, count, id => do
    let next ← m.stepDown id
    if next = head then return count
    match steps with
    | 0 => throw (.unterminated next)
    | steps + 1 =>
      if (← checked (m.node next)).role.column? ≠ some column then
        throw (.foreign next column)
      m.checkRing next
      checkDownFrom m column head steps (count + 1) next

/-- Checks the ring of a column and counts its entries. -/
def checkColumn (m : Matrix) (column : Nat) : Except LinkError Nat := do
  let head ← checked (headerOf column)
  m.checkDownFrom column head m.nodes.size 0 head

/-- Checks the ring of a column and the size kept for it. -/
def checkActive (m : Matrix) (column : Nat) : Except LinkError Unit := do
  let actual ← m.checkColumn column
  let recorded ← checked (m.columnSize column)
  if actual = recorded then return ()
  else throw (.sizeMismatch column recorded actual)

/-- Checks the links that can be reached from the root, and reports the first fault: first those
    of the headers, then those of each active column in the order of the ring. -/
def check (m : Matrix) : Except LinkError Unit := do
  m.checkRing root
  (← checked m.activeColumns).forM m.checkActive

end Matrix

end ExactCover
