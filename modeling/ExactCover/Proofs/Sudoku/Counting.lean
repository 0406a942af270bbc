import ExactCover.Proofs.Search.Requests
import ExactCover.Proofs.Sudoku.CoverSolver
import Mathlib.Data.ENat.Lattice

/-!
# Counting solutions

The exact covers of the matrix of a puzzle are as many as its solutions, and the search finds each
of them once. So the count of the solver is the number of solutions, cut off at the limit it is
given.

## Key results

- `Enumerates.encard_solutions`: there are as many solutions as exact covers in an enumeration
- `countSolutions_eq_min`: the count of the solver
-/

namespace ExactCover.Sudoku

namespace Board

variable {b : Board}

/-- There are as many solutions as there are exact covers. -/
private theorem encard_coversRest (b : Board) :
    {S | CoversRest constraintCount b.matrixRows [] S}.encard =
      {t : Board | t.isSolutionOf b = true}.encard := by
  -- each exact cover has its board, and these are the solutions
  have hboard : ∀ S, CoversRest constraintCount b.matrixRows [] S →
      ∃ s : Board, ∀ c d, s.get c = some d ↔ b.Chosen S (c, d) :=
    fun S hS => (exists_board hS).imp fun _ h => h.1
  choose! board hget using hboard
  have hbij := bijOn_solutions hget
  rw [← hbij.image_eq, hbij.injOn.encard_image]

/-- Lists that name each exact cover once are as many as there are solutions. -/
theorem Enumerates.encard_solutions {covers : List (List Nat)} (h : b.Enumerates covers) :
    {t : Board | t.isSolutionOf b = true}.encard = covers.length := by
  have hset : {S | CoversRest constraintCount b.matrixRows [] S} =
      ((covers.map List.toFinset).toFinset : Finset (Finset Nat)) := by
    ext S
    rw [Finset.mem_coe, List.mem_toFinset, h.mem_iff]
    rfl
  rw [← encard_coversRest, hset, Set.encard_coe_eq_coe_finsetCard,
    List.toFinset_card_of_nodup h.coversNodup, List.length_map]

end Board

namespace CoverSolver

/-- A count of none needs no search. -/
private theorem countSolutions_zero (s : CoverSolver) (b : Board) :
    (s.countSolutions b 0).1 = .ok 0 := by
  obtain ⟨m, -, hm, -⟩ := b.exists_table
  have hrun := Search.run_eq_ok_iff.mpr (Search.solveUpTo_zero
    (s := { matrix := m, selection := s.selection, maxNodes := s.maxNodes }) rfl)
  simp only [countSolutions, search, hm, hrun]
  rfl

/-- The solver counts the solutions up to the limit, unless the search is cut short. -/
theorem countSolutions_correct (s : CoverSolver) (b : Board) (limit : Nat) :
    match s.countSolutions b limit with
    | (.ok n, _) => (n : ℕ∞) = min (limit : ℕ∞) {t : Board | t.isSolutionOf b = true}.encard
    | (.error e, s') => s.Limited e s' := by
  rcases Nat.eq_zero_or_pos limit with rfl | hlimit
  -- a count of none, and a search for up to as many as the limit
  · have hzero := s.countSolutions_zero b
    generalize s.countSolutions b 0 = x at hzero ⊢
    obtain ⟨result, s'⟩ := x
    obtain rfl : result = .ok 0 := hzero
    simp
  · have hsearch := s.search_eq_take b hlimit
    rw [countSolutions]
    generalize s.search b _ = x at hsearch ⊢
    match x, hsearch with
    | (.error e, s'), hlimited => exact hlimited
    | (.ok found, s'), ⟨covers, henum, hfound⟩ =>
      -- the exact covers found are the first ones of the enumeration
      have hlength : found.length = min limit covers.length := by
        rw [hfound, List.length_map, List.length_take]
      show (found.length : ℕ∞) = _
      rw [henum.encard_solutions, hlength]
      exact Monotone.map_min Nat.mono_cast

/-- The count of the solver is the number of solutions, cut off at the limit, and a count up to two
    is one exactly for the puzzles with one solution. There is no count only if the solver meets
    its limit of nodes or a counter is full. -/
theorem countSolutions_eq_min (s : CoverSolver) (b : Board) :
    (∀ limit : Nat,
      match s.countSolutions b limit with
      | (.ok n, _) => (n : ℕ∞) = min (limit : ℕ∞) {t : Board | t.isSolutionOf b = true}.encard
      | (.error e, s') => s.Limited e s') ∧
    match s.countSolutions b 2 with
    | (.ok n, _) => n = 1 ↔ ∃! t : Board, t.isSolutionOf b = true
    | (.error e, s') => s.Limited e s' := by
  refine ⟨s.countSolutions_correct b, ?_⟩
  have htwo := s.countSolutions_correct b 2
  generalize s.countSolutions b 2 = x at htwo ⊢
  match x, htwo with
  | (.error e, s'), hlimited => exact hlimited
  | (.ok n, s'), hcount =>
    -- below two, the count is not cut off
    have hone : n = 1 ↔ {t : Board | t.isSolutionOf b = true}.encard = 1 := by
      rw [← Nat.cast_inj (R := ℕ∞), hcount, Nat.cast_one, min_eq_iff]
      constructor
      · rintro (⟨htwo, -⟩ | ⟨hone, -⟩)
        · exact absurd htwo (by decide)
        · exact hone
      · intro hone
        exact .inr ⟨hone, by rw [hone]; decide⟩
    show n = 1 ↔ _
    rw [hone, Set.encard_eq_one]
    exact exists_congr fun t => Set.eq_singleton_iff_unique_mem

end CoverSolver
end ExactCover.Sudoku
