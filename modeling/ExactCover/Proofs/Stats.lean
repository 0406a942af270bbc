import ExactCover.Proofs.Matrix.Walk
import ExactCover.Search.Stats
import Mathlib.Algebra.Group.Defs

/-!
# Adding up counters

What is counted in one search and what is counted in the next one are added up, except that of
the two depths the larger one is kept. Each step of a search that counts adds one to one counter.

## Key results

- `enter_eq_add`, `cover_eq_add`, `backtrack_eq_add`, `solve_eq_add`: what one step adds
-/

namespace ExactCover

/-- A sum of words that is given is the sum. -/
private theorem Word.eq_of_add {a b c : Nat} (h : Word.add a b = .ok c) : c = a + b := by
  rw [Word.add] at h
  split at h
  · exact (Except.ok.inj h).symm
  · exact nomatch h

namespace Stats

variable {s s' : Stats} {depth : Nat}

instance : Add Stats where
  add s k := {
    nodes := s.nodes + k.nodes
    covers := s.covers + k.covers
    backtracks := s.backtracks + k.backtracks
    solutions := s.solutions + k.solutions
    maxDepth := max s.maxDepth k.maxDepth }

instance : Zero Stats := ⟨{}⟩

/-- The counters are added up, and the larger depth is kept. -/
theorem add_def (s k : Stats) : s + k =
    ⟨s.nodes + k.nodes, s.covers + k.covers, s.backtracks + k.backtracks,
      s.solutions + k.solutions, max s.maxDepth k.maxDepth⟩ := rfl

/-- Nothing has been counted. -/
private theorem zero_def : (0 : Stats) = ⟨0, 0, 0, 0, 0⟩ := rfl

instance : AddMonoid Stats where
  add_assoc s k l := by simp [add_def, Nat.add_assoc, Nat.max_assoc]
  zero_add s := by simp [add_def, zero_def]
  add_zero s := by simp [add_def, zero_def]
  nsmul := nsmulRec

/-- A node adds one, and its depth may be the largest. -/
theorem enter_eq_add (h : s.enter depth = .ok s') :
    s' = s + { nodes := 1, maxDepth := depth } := by
  obtain ⟨nodes, hnodes, h⟩ := bind_eq_ok.mp h
  cases h
  simp [add_def, Word.eq_of_add hnodes]

/-- A covered column adds one. -/
theorem cover_eq_add (h : s.cover = .ok s') : s' = s + { covers := 1 } := by
  obtain ⟨covers, hcovers, h⟩ := bind_eq_ok.mp h
  cases h
  simp [add_def, Word.eq_of_add hcovers]

/-- A row given up adds one. -/
theorem backtrack_eq_add (h : s.backtrack = .ok s') : s' = s + { backtracks := 1 } := by
  obtain ⟨backtracks, hbacktracks, h⟩ := bind_eq_ok.mp h
  cases h
  simp [add_def, Word.eq_of_add hbacktracks]

/-- A solution adds one. -/
theorem solve_eq_add (h : s.solve = .ok s') : s' = s + { solutions := 1 } := by
  obtain ⟨solutions, hsolutions, h⟩ := bind_eq_ok.mp h
  cases h
  simp [add_def, Word.eq_of_add hsolutions]

/-- Covering a column notes no depth. -/
theorem cover_maxDepth (h : s.cover = .ok s') : s'.maxDepth = s.maxDepth := by
  rw [cover_eq_add h]
  exact Nat.max_zero _

/-- Giving up a row notes no depth. -/
theorem backtrack_maxDepth (h : s.backtrack = .ok s') : s'.maxDepth = s.maxDepth := by
  rw [backtrack_eq_add h]
  exact Nat.max_zero _

/-- Keeping a solution notes no depth. -/
theorem solve_maxDepth (h : s.solve = .ok s') : s'.maxDepth = s.maxDepth := by
  rw [solve_eq_add h]
  exact Nat.max_zero _

/-- Columns are covered one after the other. -/
theorem covers_add (j k : Nat) : ({ covers := j } + { covers := k } : Stats) =
    { covers := j + k } := by
  simp [add_def]

end Stats
end ExactCover
