import ExactCover.Proofs.Sudoku.CoverSolver
import ExactCover.Proofs.Sudoku.Filling

/-!
# Backtracking finds the least solution

A solution of a puzzle completes it in its empty cells. So the first way to fill these is the
least solution in the order of the cells, and if there is no way there is no solution.

## Key results

- `completes_blanks_iff`: filling the empty cells is solving the puzzle
- `solveOne_least`: the solver finds the least solution, and agrees with the search over a matrix
-/

namespace ExactCover.Sudoku

namespace Board

variable {b t u : Board} {c : Cell}

/-- The values of all cells, row by row. -/
def values (b : Board) : List Nat := b.toList.map value

/-- They are the values in all cells. -/
private theorem values_eq (b : Board) : b.values = b.valuesAt Cell.all := by
  rw [values, toList_eq, List.map_map]
  rfl

/-- The empty cells are those without a digit. -/
private theorem mem_blanks : c ∈ b.blanks ↔ b.get c = none := by
  simp [blanks, mem_all]

/-- Filling the empty cells of a puzzle is solving it. -/
theorem completes_blanks_iff : b.Completes b.blanks t ↔ t.isSolutionOf b = true := by
  -- either way the board is filled, has no clash and keeps the digits of the puzzle
  rw [isSolutionOf_iff, isSolved, Bool.and_eq_true, isComplete_iff]
  constructor
  · intro h
    refine ⟨⟨fun c => ?_, h.consistent⟩, h.keeps⟩
    cases hc : b.get c with
    | none => exact h.filled c (mem_blanks.mpr hc)
    | some d => exact ⟨d, h.keeps c d hc⟩
  · rintro ⟨⟨hfilled, hcons⟩, hkeeps⟩
    exact ⟨hcons, hkeeps, fun c _ => hfilled c⟩

/-- Lists of numbers that differ only where a test holds are compared there. -/
private theorem map_le_map_of_filter {f g : Cell → Nat} {p : Cell → Bool} {cells : List Cell}
    (h : (cells.filter p).map f ≤ (cells.filter p).map g)
    (hsame : ∀ c ∈ cells, p c = false → f c = g c) : cells.map f ≤ cells.map g := by
  -- induction on the cells: where the test fails the two lists begin alike
  induction cells with
  | nil => exact le_rfl
  | cons c cells ih =>
    rw [List.forall_mem_cons] at hsame
    rw [List.map_cons, List.map_cons, cons_le_cons_iff]
    cases hp : p c with
    | true =>
      rw [List.filter_cons_of_pos hp, List.map_cons, List.map_cons, cons_le_cons_iff] at h
      exact h.imp_right fun ⟨heq, h⟩ => ⟨heq, ih h hsame.2⟩
    | false =>
      rw [List.filter_cons_of_neg (by simp [hp])] at h
      exact .inr ⟨hsame.1 hp, ih h hsame.2⟩

/-- Solutions differ only in the empty cells of the puzzle, and are compared there. -/
private theorem values_le (ht : t.isSolutionOf b = true) (hu : u.isSolutionOf b = true)
    (h : t.valuesAt b.blanks ≤ u.valuesAt b.blanks) : t.values ≤ u.values := by
  rw [values_eq, values_eq]
  refine map_le_map_of_filter h fun c _ hc => ?_
  -- a cell that is not empty has its digit in both solutions
  obtain ⟨d, hd⟩ := Option.isSome_iff_exists.mp (by simpa using hc)
  rw [((isSolutionOf_iff t b).mp ht).2 c d hd, ((isSolutionOf_iff u b).mp hu).2 c d hd]

end Board

namespace BacktrackingSolver

/-- The solver starts with a board in which no digits clash. -/
private theorem open_start {b : Board} {o : Occupancy} (h : Occupancy.ofBoard? b = some o) :
    Filling.Open { board := b, occupancy := o } b.blanks where
  tracks := Occupancy.tracks_of_ofBoard? h
  consistent := by rw [Board.isConsistent, h]; rfl
  nodup := Board.all_nodup.filter _
  empty _ hc := Board.mem_blanks.mp hc

/-- For every puzzle the solver gives the least solution, or says that there is none and is
    right, unless a limit is met. -/
theorem solveOne_correct (s : BacktrackingSolver) (b : Board) :
    match s.solveOne b with
    | (.ok (some t), _) => t.isSolutionOf b = true ∧
        ∀ u : Board, u.isSolutionOf b = true → t.values ≤ u.values
    | (.ok none, _) => ∀ u : Board, u.isSolutionOf b = false
    | (.error e, s') => Filling.Limited s.maxNodes e s'.stats := by
  rw [solveOne]
  cases ho : Occupancy.ofBoard? b with
  | none =>
    -- the digits given clash, and any solution would keep them
    have hclash : b.isConsistent = false := by rw [Board.isConsistent, ho]; rfl
    exact fun u => Board.not_isSolutionOf_of_clash hclash
  | some o =>
    have hends := Filling.fill_ends s.maxNodes 0 (open_start ho)
    dsimp only [EStateM.run] at hends ⊢
    -- the filling fails, finds that there is no way, or leaves the board full
    generalize Filling.fill s.maxNodes b.blanks 0 _ = x at hends ⊢
    match x, hends with
    | .error e after, hlimited => exact hlimited
    | .ok false after, hnone =>
      intro u
      rw [← Bool.not_eq_true]
      exact fun hu => hnone.2.2 u (Board.completes_blanks_iff.mpr hu)
    | .ok true after, hfull =>
      obtain ⟨-, hcomplete, -, hleast⟩ := hfull
      have hsol := Board.completes_blanks_iff.mp hcomplete
      exact ⟨hsol, fun u hu =>
        Board.values_le hsol hu (hleast u (Board.completes_blanks_iff.mpr hu))⟩

/-- For every puzzle the solver gives the solution whose values, row by row, are least in the
    lexicographic order, or says that there is none and is right, unless it meets its limit of
    nodes or a counter is full. So its answers and those of the search over a matrix agree on
    whether there is a solution, and if there is just one they are the same. -/
theorem solveOne_least (s : BacktrackingSolver) (b : Board) :
    (match s.solveOne b with
      | (.ok (some t), _) => t.isSolutionOf b = true ∧
          ∀ u : Board, u.isSolutionOf b = true → t.values ≤ u.values
      | (.ok none, _) => ∀ u : Board, u.isSolutionOf b = false
      | (.error e, s') => Filling.Limited s.maxNodes e s'.stats) ∧
    ∀ c : CoverSolver, match (s.solveOne b).1, (c.solveOne b).1 with
      | .ok (some t), .ok (some u) =>
          (∃! v : Board, v.isSolutionOf b = true) → t = u
      | .ok (some _), .ok none => False
      | .ok none, .ok (some _) => False
      | _, _ => True := by
  refine ⟨s.solveOne_correct b, fun c => ?_⟩
  have hs := s.solveOne_correct b
  have hc := c.solveOne_correct b
  generalize s.solveOne b = x at hs ⊢
  generalize c.solveOne b = y at hc ⊢
  -- both answers say what all solutions are, so they cannot contradict each other
  match x, y, hs, hc with
  | (.ok (some t), _), (.ok (some u), _), ⟨ht, _⟩, hu => exact fun huniq => huniq.unique ht hu
  | (.ok (some t), _), (.ok none, _), ⟨ht, _⟩, hnone =>
    exact Bool.false_ne_true ((hnone t).symm.trans ht)
  | (.ok none, _), (.ok (some u), _), hnone, hu =>
    exact Bool.false_ne_true ((hnone u).symm.trans hu)
  | (.ok none, _), (.ok none, _), _, _ => trivial
  | (.error _, _), (_, _), _, _ => trivial
  | (.ok none, _), (.error _, _), _, _ => trivial
  | (.ok (some _), _), (.error _, _), _, _ => trivial

end BacktrackingSolver
end ExactCover.Sudoku
