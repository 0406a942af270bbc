import ExactCover.Proofs.Sudoku.Accounts
import ExactCover.Proofs.Sudoku.Counting
import ExactCover.Proofs.Sudoku.NodeLimit
import ExactCover.Sudoku.Solver

/-!
# Both solvers behind one interface

What holds of either solver: its answer is right, its count of solutions agrees with its answer,
and it gives an answer exactly if it needs no more nodes than it may enter, which are counted by the
same solver without a limit.

## Key results

- `Solver.solveOne_correct`: the answer and the count of solutions
- `Solver.exists_ok_iff`, `CoverSolver.exists_count_iff`: when there is an answer
-/

namespace ExactCover.Sudoku

variable {α : Type} {b : Board} {maxNodes : Option Nat} {method : Method} {selection : Selection}

/-- So many nodes may be entered. -/
def Allows (maxNodes : Option Nat) (nodes : Nat) : Prop :=
  ∀ limit, maxNodes = some limit → nodes ≤ limit

/-- A run has met its limit of nodes, or a counter was full. -/
def Ended (maxNodes : Option Nat) (e : Halt) : Prop :=
  (∃ limit, maxNodes = some limit ∧ e = .nodeLimit limit) ∨ e = .fault .overflow

/-- Runs that are only cut off by their limit of nodes give an answer within the limit, and are cut
    off above it, unless a counter is full. -/
private theorem exists_ok_iff_allows {f : Option Nat → Except Halt α × Stats}
    (hcut : ∀ limit, CutOff limit (f none) (f (some limit)))
    (hended : ∀ maxNodes e, (f maxNodes).1 = .error e → Ended maxNodes e)
    (hover : (f maxNodes).1 ≠ .error (.fault .overflow)) :
    (∃ a, (f maxNodes).1 = .ok a) ↔ Allows maxNodes (f none).2.nodes := by
  -- the limit is the only reason to give no answer
  have hok : (∃ a, (f maxNodes).1 = .ok a) ↔
      ∀ limit, (f maxNodes).1 ≠ .error (.nodeLimit limit) := by
    cases hx : (f maxNodes).1 with
    | ok a => simp
    | error e =>
      rcases hended maxNodes e hx with ⟨limit, -, rfl⟩ | rfl
      · simp
      · exact absurd hx hover
  rw [hok]
  constructor
  · rintro h limit rfl
    by_contra habove
    exact h limit ((hcut limit).2 (Nat.lt_of_not_le habove)).1
  · intro h limit hlimit
    obtain ⟨limit', hsome, heq⟩ | heq := hended maxNodes _ hlimit
    · -- within the limit the run is the one without a limit, which is never cut off
      subst hsome
      rw [(hcut limit').1 (h limit' rfl)] at hlimit
      obtain ⟨_, hnone, -⟩ | heq := hended none _ hlimit
      · exact nomatch hnone
      · exact nomatch heq
    · exact nomatch heq

namespace Solver

/-- The answer is right and the count of solutions agrees with it, or the solver has met its limit
    of nodes or a full counter. -/
theorem solveOne_correct (method : Method) (selection : Selection) (maxNodes : Option Nat)
    (b : Board) :
    match (new method selection maxNodes).solveOne b with
    | (.ok (some t), s) => t.isSolutionOf b = true ∧ s.stats.solutions = 1
    | (.ok none, s) => (∀ t : Board, t.isSolutionOf b = false) ∧ s.stats.solutions = 0
    | (.error e, _) => Ended maxNodes e := by
  -- each method is right about solutions, and its accounts agree
  cases method with
  | cover =>
    have hcorrect := CoverSolver.solveOne_correct { selection, maxNodes } b
    have haccounts := CoverSolver.solveOne_accounts { selection, maxNodes } b
    simp only [new, solveOne]
    generalize CoverSolver.solveOne _ b = x at hcorrect haccounts ⊢
    match x with
    | (.ok (some t), s) => exact ⟨hcorrect, haccounts.1⟩
    | (.ok none, s) => exact ⟨hcorrect, haccounts.1⟩
    | (.error e, s) => exact hcorrect.imp_right And.left
  | backtracking =>
    have hcorrect := BacktrackingSolver.solveOne_correct { maxNodes } b
    have haccounts := BacktrackingSolver.solveOne_accounts { maxNodes } b
    simp only [new, solveOne]
    generalize BacktrackingSolver.solveOne _ b = x at hcorrect haccounts ⊢
    match x with
    | (.ok (some t), s) => exact ⟨hcorrect.1, haccounts.solutions⟩
    | (.ok none, s) =>
      refine ⟨hcorrect, ?_⟩
      dsimp only at haccounts
      split at haccounts
      · exact haccounts.solutions
      · show s.stats.solutions = 0
        rw [haccounts]
    | (.error e, s) => exact hcorrect.imp_right And.left

/-- A solver gives no answer only at its limit of nodes or at a full counter. -/
theorem ended_of_solveOne {e : Halt}
    (h : ((new method selection maxNodes).solveOne b).1 = .error e) : Ended maxNodes e := by
  have hcorrect := solveOne_correct method selection maxNodes b
  generalize (new method selection maxNodes).solveOne b = x at h hcorrect
  obtain ⟨result, s⟩ := x
  obtain rfl : result = .error e := h
  exact hcorrect

/-- A limit of nodes only cuts off. -/
theorem solveOne_cutOff (method : Method) (selection : Selection) (b : Board) (limit : Nat) :
    CutOff limit
      (((new method selection none).solveOne b).1, ((new method selection none).solveOne b).2.stats)
      (((new method selection (some limit)).solveOne b).1,
        ((new method selection (some limit)).solveOne b).2.stats) := by
  cases method with
  | cover => exact CoverSolver.solveOne_cutOff (s := { selection }) nofun b
  | backtracking => exact BacktrackingSolver.solveOne_cutOff (s := {}) nofun b

/-- The nodes that a solver needs for a puzzle. -/
def nodesNeeded (method : Method) (selection : Selection) (b : Board) : Nat :=
  ((new method selection none).solveOne b).2.stats.nodes

/-- A solver gives an answer exactly if it may enter the nodes it needs, unless a counter is
    full. -/
theorem exists_ok_iff
    (hover : ((new method selection maxNodes).solveOne b).1 ≠ .error (.fault .overflow)) :
    (∃ solution, ((new method selection maxNodes).solveOne b).1 = .ok solution) ↔
      Allows maxNodes (nodesNeeded method selection b) :=
  exists_ok_iff_allows
    (f := fun maxNodes => (((new method selection maxNodes).solveOne b).1,
      ((new method selection maxNodes).solveOne b).2.stats))
    (solveOne_cutOff method selection b) (fun _ _ => ended_of_solveOne) hover

end Solver

namespace CoverSolver

/-- The nodes that a count of up to two solutions needs. -/
def nodesToCount (selection : Selection) (b : Board) : Nat :=
  (({ selection } : CoverSolver).countSolutions b 2).2.stats.nodes

/-- There is no count only at the limit of nodes or at a full counter. -/
theorem ended_of_countSolutions {e : Halt}
    (h : (({ selection, maxNodes } : CoverSolver).countSolutions b 2).1 = .error e) :
    Ended maxNodes e := by
  have hcorrect := countSolutions_correct { selection, maxNodes } b 2
  generalize countSolutions _ b 2 = x at h hcorrect
  obtain ⟨result, s⟩ := x
  obtain rfl : result = .error e := h
  exact hcorrect.imp_right And.left

/-- There is a count exactly if the nodes for it may be entered, unless a counter is full. -/
theorem exists_count_iff
    (hover : (({ selection, maxNodes } : CoverSolver).countSolutions b 2).1 ≠
      .error (.fault .overflow)) :
    (∃ n, (({ selection, maxNodes } : CoverSolver).countSolutions b 2).1 = .ok n) ↔
      Allows maxNodes (nodesToCount selection b) :=
  exists_ok_iff_allows
    (f := fun maxNodes => ((({ selection, maxNodes } : CoverSolver).countSolutions b 2).1,
      (({ selection, maxNodes } : CoverSolver).countSolutions b 2).2.stats))
    (fun _ => countSolutions_cutOff (s := { selection }) nofun b 2)
    (fun _ _ => ended_of_countSolutions) hover

/-- A count of one out of up to two means that there is just one solution. -/
theorem count_eq_one_iff {n : Nat}
    (h : (({ selection, maxNodes } : CoverSolver).countSolutions b 2).1 = .ok n) :
    n = 1 ↔ ∃! t : Board, t.isSolutionOf b = true := by
  have hcorrect := countSolutions_correct { selection, maxNodes } b 2
  generalize countSolutions _ b 2 = x at h hcorrect
  obtain ⟨result, s⟩ := x
  obtain rfl : result = .ok n := h
  have hcount : (n : ℕ∞) = min ((2 : ℕ) : ℕ∞) {t : Board | t.isSolutionOf b = true}.encard :=
    hcorrect
  -- one solution is a set of one
  have hunique : {t : Board | t.isSolutionOf b = true}.encard = 1 ↔
      ∃! t : Board, t.isSolutionOf b = true := by
    rw [Set.encard_eq_one]
    exact exists_congr fun t => Set.eq_singleton_iff_unique_mem
  rw [← hunique, ← Nat.cast_inj (R := ℕ∞), hcount, Nat.cast_one]
  -- the count is cut off at two, so a count of one is not
  constructor
  · intro hone
    rcases min_choice ((2 : ℕ) : ℕ∞) {t : Board | t.isSolutionOf b = true}.encard with h | h
    · have htwo : ((2 : ℕ) : ℕ∞) ≠ 1 := by decide
      exact absurd (h.symm.trans hone) htwo
    · exact h.symm.trans hone
  · intro hone
    rw [hone]
    decide

end CoverSolver
end ExactCover.Sudoku
