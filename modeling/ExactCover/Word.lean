/-!
# Machine words

Row identifiers, sizes and counters are kept in 64-bit words. They are written as natural
numbers here, and each addition, subtraction or multiplication that a word may not hold is a
`Fault` instead of a wrapped result.
-/

namespace ExactCover

/-- The numbers of a word lie strictly below this bound. -/
def wordBound : Nat := UInt64.size

/-- What can go wrong in word arithmetic and in following the links of a matrix. -/
inductive Fault where
  /-- An index lies outside the array it is used on. -/
  | outOfBounds
  /-- A word cannot hold the result. -/
  | overflow
  /-- A ring did not lead back to the node it was entered at. -/
  | endless
  /-- A row was asked of a node that stands in no row. -/
  | noRow
  deriving DecidableEq, Repr

namespace Word

/-- The sum of two words. -/
@[inline] def add (a b : Nat) : Except Fault Nat :=
  if a + b < wordBound then .ok (a + b) else .error .overflow

/-- The difference of two words, which must not be negative. -/
@[inline] def sub (a b : Nat) : Except Fault Nat :=
  if b ≤ a then .ok (a - b) else .error .overflow

/-- The product of two words. -/
@[inline] def mul (a b : Nat) : Except Fault Nat :=
  if a * b < wordBound then .ok (a * b) else .error .overflow

end Word

end ExactCover
