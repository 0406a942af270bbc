import ExactCover.Proofs.Sudoku.Reduction
import ExactCover.Sudoku.CoverSolver

/-!
# The solver decides every puzzle

The search over the matrix of a puzzle finds an exact cover if the puzzle has a solution, and the
board of any exact cover is a solution. So the answer of the solver is right whenever it gives
one, and it fails to give one only when a limit is met.

## Key results

- `search_eq_take`: a search over the matrix of a puzzle finds its exact covers
- `solveOne_decides`: the solver finds a solution if there is one
-/

namespace ExactCover

/-- Finding the first exact cover is a run that is asked for one. -/
private theorem Search.run_solveOne (s : Search) :
    s.run solveOne = ((s.run (solveUpTo 1)).1.map List.getLast?, (s.run (solveUpTo 1)).2) := by
  have hbind : solveOne = solveUpTo 1 >>= fun found => pure found.getLast? := rfl
  rw [hbind]
  simp only [run, EStateM.run]
  cases hx : solveUpTo 1 s with
  | ok found s' => rw [bind_of_ok hx]; rfl
  | error e s' => rw [bind_of_error hx]; rfl

namespace Sudoku

open AlgorithmX (Problem)

namespace Board

variable {b : Board}

/-- The matrix of a puzzle shows its rows. -/
theorem exists_table (b : Board) :
    ∃ (m : Matrix) (t : Table), b.matrix = .ok m ∧ t.columnCount = constraintCount ∧
      t.rows = b.matrixRows ∧ m.Covered t [] := by
  obtain ⟨m, hm, hrows⟩ := b.exists_matrix
  have hcreate : Matrix.create constraintCount = .ok (Matrix.empty constraintCount) :=
    Matrix.create_eq_ok_iff.mpr ⟨by decide, rfl⟩
  obtain ⟨t, hcount, ht, hcovered⟩ := Matrix.covered_of_create hcreate hrows
  exact ⟨m, t, hm, hcount, ht, hcovered⟩

/-- Lists of positions that name each exact cover of a puzzle once. -/
structure Enumerates (b : Board) (covers : List (List Nat)) : Prop where
  nodup : ∀ l ∈ covers, l.Nodup
  coversNodup : (covers.map List.toFinset).Nodup
  mem_iff : ∀ S, S ∈ covers.map List.toFinset ↔ CoversRest constraintCount b.matrixRows [] S

/-- The board of an enumerated exact cover is a solution. -/
theorem Enumerates.exists_solution {covers : List (List Nat)} (h : b.Enumerates covers)
    {l : List Nat} (hl : l ∈ covers) :
    ∃ s : Board, ofRowIds (l.map (idAt b.matrixRows)) = .ok s ∧ s.isSolutionOf b = true := by
  -- its set is an exact cover, which stands for a board
  have hS := (h.mem_iff _).mp (List.mem_map_of_mem hl)
  obtain ⟨s, hs, hids⟩ := exists_board hS
  exact ⟨s, hids l (h.nodup l hl) rfl, isSolutionOf_of_coversRest hS hs⟩

/-- A puzzle without exact covers has no solution. -/
private theorem Enumerates.not_isSolutionOf (h : b.Enumerates []) (s : Board) :
    s.isSolutionOf b = false := by
  rw [← Bool.not_eq_true]
  intro hs
  exact List.not_mem_nil ((h.mem_iff _).mpr (coversRest_positions hs))

end Board

namespace CoverSolver

/-- The solver has met its limit of nodes, or one of the counters it is left with could not count
    further. -/
def Limited (s : CoverSolver) (e : Halt) (s' : CoverSolver) : Prop :=
  (∃ limit, s.maxNodes = some limit ∧ e = .nodeLimit limit) ∨
    (e = .fault .overflow ∧ s'.stats.Full)

/-- A search over the matrix of a puzzle gives its first exact covers, or a limit is met. -/
theorem search_eq_take (s : CoverSolver) (b : Board) {max : Nat} (hmax : 1 ≤ max) :
    match s.search b (Search.solveUpTo max) with
    | (.ok found, _) => ∃ covers, b.Enumerates covers ∧
        found = (covers.take max).map (·.map (idAt b.matrixRows))
    | (.error e, s') => s.Limited e s' := by
  obtain ⟨m, t, hm, hcount, hrows, hcovered⟩ := b.exists_table
  -- the exact covers of Algorithm X are an enumeration
  have henum : b.Enumerates
      ((t.problem s.selection s.maxNodes max).covers (t.active []) (t.free [])) := by
    refine ⟨fun l hl => Problem.nodup_of_mem_covers Table.within_problem hl,
      Problem.covers_nodup Table.within_problem (List.nodup_range.filter _), fun S => ?_⟩
    rw [Problem.mem_covers_iff Table.within_problem, Table.isExactCover_problem, hcount, hrows]
  have hid : t.id = idAt b.matrixRows := by
    rw [← hrows]
    rfl
  rw [search, hm]
  dsimp only
  -- a run gives the first of them, or it meets the limit or a full counter
  have hrun := Search.solveUpTo_eq_take s.selection s.maxNodes hcovered hmax
  rw [hid] at hrun
  generalize Search.run _ _ = x at hrun ⊢
  obtain ⟨result, after⟩ := x
  rcases hrun with hok | ⟨limit, hlimit, herror⟩ | ⟨herror, hfull⟩
  · obtain rfl : result = _ := hok
    exact ⟨_, henum, rfl⟩
  · obtain rfl : result = _ := herror
    exact .inl ⟨limit, hlimit, rfl⟩
  · obtain rfl : result = _ := herror
    exact .inr ⟨rfl, hfull⟩

/-- A search for the first exact cover is a search for one. -/
theorem search_solveOne (s : CoverSolver) (b : Board) :
    s.search b Search.solveOne =
      ((s.search b (Search.solveUpTo 1)).1.map List.getLast?,
        (s.search b (Search.solveUpTo 1)).2) := by
  obtain ⟨m, -, hm, -⟩ := b.exists_table
  simp only [search, hm, Search.run_solveOne]

/-- For every puzzle the solver gives a solution, or says that there is none and is right, unless
    it meets a limit. -/
theorem solveOne_correct (s : CoverSolver) (b : Board) :
    match s.solveOne b with
    | (.ok (some t), _) => t.isSolutionOf b = true
    | (.ok none, _) => ∀ t : Board, t.isSolutionOf b = false
    | (.error e, s') => s.Limited e s' := by
  have hsearch := s.search_eq_take b le_rfl
  rw [solveOne, search_solveOne]
  generalize s.search b _ = x at hsearch ⊢
  -- no answer, no exact cover, or a first one
  match x, hsearch with
  | (.error e, s'), hlimited => exact hlimited
  | (.ok found, s'), ⟨covers, henum, hfound⟩ =>
    subst hfound
    cases covers with
    | nil => exact henum.not_isSolutionOf
    | cons l covers =>
      -- the first exact cover is read back as a board
      obtain ⟨t, ht, hsol⟩ := henum.exists_solution (List.mem_cons_self ..)
      simp only [List.take_succ_cons, List.take_zero, List.map_cons, List.map_nil, Except.map,
        List.getLast?_singleton, ok_bind, ht]
      exact hsol

/-- For every puzzle the solver gives a solution, or says that there is none and is right, unless
    it meets its limit of nodes or a counter is full. -/
theorem solveOne_decides (b : Board) :
    (∀ s : CoverSolver,
      match s.solveOne b with
      | (.ok (some t), _) => t.isSolutionOf b = true
      | (.ok none, _) => ∀ t : Board, t.isSolutionOf b = false
      | (.error e, s') => s.Limited e s') ∧
    match b.solve with
    | some t => t.isSolutionOf b = true
    | none => (∀ t : Board, t.isSolutionOf b = false) ∨
        (({} : CoverSolver).solveOne b).1 = .error (.fault .overflow) ∧
          (({} : CoverSolver).solveOne b).2.stats.Full := by
  refine ⟨fun s => s.solveOne_correct b, ?_⟩
  -- the solver with its default rule and no limit
  have hdefault := ({} : CoverSolver).solveOne_correct b
  rw [Board.solve]
  generalize ({} : CoverSolver).solveOne b = x at hdefault ⊢
  match x, hdefault with
  | (.ok (some t), _), hsol => exact hsol
  | (.ok none, _), hnone => exact .inl hnone
  | (.error e, s'), hlimited =>
    rcases hlimited with ⟨limit, hlimit, -⟩ | ⟨rfl, hfull⟩
    · -- the default solver has no limit of nodes
      exact nomatch hlimit
    · exact .inr ⟨rfl, hfull⟩

end CoverSolver
end Sudoku
end ExactCover
