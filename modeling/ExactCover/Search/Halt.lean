import ExactCover.Matrix.Check

/-!
# Searches without an answer
-/

namespace ExactCover

/-- Why a search ends without an answer. -/
inductive Halt where
  /-- More nodes than `limit` would have been needed. -/
  | nodeLimit (limit : Nat)
  /-- The search had ended before. -/
  | spent
  /-- The links of the matrix were found broken at a node of the tree. -/
  | broken (error : LinkError)
  /-- An exact cover of a puzzle has a number of rows other than 81. -/
  | coverLength (rows : Nat)
  /-- A link or a counter failed. -/
  | fault (cause : Fault)
  deriving DecidableEq, Repr

/-- The text shown for the end of a search; what never happens has none. -/
def Halt.message : Halt → Option String
  | nodeLimit limit => s!"search aborted after visiting {limit} nodes"
  | spent => "search already ran to a solution; rebuild the matrix to search again"
  | _ => none

end ExactCover
