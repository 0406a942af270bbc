import ExactCover.Proofs.Search.Accounts
import ExactCover.Proofs.Sudoku.Backtracking

/-!
# The accounts of the solvers

A solver counts for one call alone. If it gives a solution, then all its nodes but those on the way
to the solution have been given up. The search over a matrix has chosen a row for each of the 81
cells, and backtracking a digit for each empty one. If there is no solution, then only the root
has not been given up; where givens clash, backtracking has not even entered the root.

## Key results

- `Filling.fill_accounts`: the search by backtracking
- `counters_account`: searches, and both solvers
-/

namespace ExactCover

open AlgorithmX (Problem)

namespace Sudoku

namespace Filling

variable {α : Type} {maxNodes : Option Nat} {n depth : Nat} {cells : List Cell} {c : Cell}
  {digits : List Digit} {s s' : Filling} {C : Filling → Prop}

/-- The counters while `filled` of `n` empty cells are filled and the board is not full yet: every
    node entered has been given up or belongs to one of these cells. -/
structure Accounts (n filled : Nat) (stats : Stats) : Prop where
  nodes : stats.nodes = stats.backtracks + filled
  solutions : stats.solutions = 0
  covers : stats.covers = 0
  depth : stats.maxDepth ≤ n

/-- The counters when all of `n` empty cells are filled. -/
structure Solved (n : Nat) (stats : Stats) : Prop where
  nodes : stats.nodes = stats.backtracks + 1 + n
  solutions : stats.solutions = 1
  covers : stats.covers = 0
  depth : stats.maxDepth = n

/-- The counters after the cells behind the first `depth` ones have been filled, or could not. -/
def Left (n depth : Nat) (full : Bool) (s : Filling) : Prop :=
  if full = true then Solved n s.stats else Accounts n (depth + 1) s.stats

/-- What is counted is used, unless a counter is full. -/
private theorem count_yields {f : Stats → Except Fault Stats} {g : Unit → Run α}
    {Q : α → Filling → Prop}
    (h : ∀ stats, f s.stats = .ok stats → Yields C Q (g () { s with stats })) :
    Yields C Q ((count f >>= g) s) := by
  cases hst : f s.stats with
  | ok stats =>
    have hcount : count f s = .ok () { s with stats } := by rw [count_eq, hst]
    exact .step hcount (h stats hst)
  | error cause =>
    have hcount : count f s = .error (.fault cause) s := by rw [count_eq, hst]
    rw [bind_of_error hcount]
    trivial

/-- A node is counted. -/
theorem enter_accounts (h : Accounts n depth s.stats) (hle : depth ≤ n) :
    Yields (fun _ => True)
      (fun _ s' => Accounts n (depth + 1) s'.stats ∧ depth ≤ s'.stats.maxDepth)
      (enter maxNodes depth s) := by
  rw [enter_eq]
  cases hst : s.stats.enter depth with
  | error cause => trivial
  | ok stats =>
    obtain rfl := Stats.enter_eq_add hst
    dsimp only
    cases Stats.exceeds _ maxNodes with
    | some limit => trivial
    | none =>
      -- the node is one more, and belongs to the next cell
      have hnodes := h.nodes
      refine ⟨⟨?_, h.solutions, h.covers, max_le h.depth hle⟩, le_max_right ..⟩
      simp only [Stats.add_def]
      omega

/-- A digit that is tried is counted below it and given up. -/
private theorem tryDigits_accounts {below : Run Bool}
    (hbelow : ∀ s, Accounts n (depth + 1) s.stats →
      Yields (fun _ => True) (Left n (depth + 1)) (below s)) (h : Accounts n (depth + 1) s.stats) :
    Yields (fun _ => True) (Left n depth) (tryDigits below c digits s) := by
  -- induction on the digits not tried yet
  induction digits generalizing s with
  | nil => exact h
  | cons d digits ih =>
    rw [tryDigits]
    refine .step (x := get) rfl ?_
    -- a digit that fits is written, and the cells behind are filled
    split
    · let s₁ : Filling :=
        { s with board := s.board.set c (some d), occupancy := s.occupancy.place c d }
      have hwrite : write c d s = .ok () s₁ := rfl
      refine .step hwrite ((hbelow s₁ h).bind fun full s₂ h₂ => ?_)
      cases full with
      | true => exact h₂
      | false =>
        rw [Left, if_neg Bool.false_ne_true] at h₂
        rw [if_neg Bool.false_ne_true]
        refine .step (x := erase c d) rfl (count_yields fun stats hst => ih ?_)
        -- one more has been given up
        obtain rfl := Stats.backtrack_eq_add hst
        have hnodes := h₂.nodes
        refine ⟨?_, h₂.solutions, h₂.covers, (max_le h₂.depth (Nat.zero_le n) :)⟩
        simp only [Stats.add_def]
        omega
    · exact ih h

/-- Filling the last of `n` empty cells counts one node more than it gives up and leaves filled. -/
theorem fill_accounts (maxNodes : Option Nat) (h : Accounts n depth s.stats)
    (hn : depth + cells.length = n) :
    Yields (fun _ => True) (Left n depth) (fill maxNodes cells depth s) := by
  -- induction on the empty cells: each node but the last tries the digits of one of them
  induction cells generalizing depth s with
  | nil =>
    rw [List.length_nil, Nat.add_zero] at hn
    rw [fill]
    refine (enter_accounts h hn.le).bind fun _ s₁ henter => count_yields fun stats hst => ?_
    obtain ⟨h₁, hdepth⟩ := henter
    obtain rfl := Stats.solve_eq_add hst
    have hnodes := h₁.nodes
    have hsolutions := h₁.solutions
    have hmax := h₁.depth
    -- all cells are full: one node more than these, and one solution
    refine ⟨?_, ?_, h₁.covers, ?_⟩
    · simp only [Stats.add_def]
      omega
    · simp only [Stats.add_def]
      omega
    · simp only [Stats.add_def]
      omega
  | cons c cells ih =>
    rw [List.length_cons] at hn
    rw [fill]
    refine (enter_accounts h (by omega)).bind fun _ s₁ henter => ?_
    exact tryDigits_accounts (fun s hs => ih hs (by omega)) henter.1

end Filling

namespace BacktrackingSolver

/-- Backtracking accounts for all of its nodes. -/
theorem solveOne_accounts (s : BacktrackingSolver) (b : Board) :
    match s.solveOne b with
    | (.ok (some _), s') => Filling.Solved b.blanks.length s'.stats
    | (.ok none, s') =>
        if b.isConsistent = true then Filling.Accounts b.blanks.length 1 s'.stats else s'.stats = {}
    | (.error _, _) => True := by
  rw [solveOne, Board.isConsistent]
  cases Occupancy.ofBoard? b with
  | none => exact rfl
  | some o =>
    have hfill : Yields (fun _ => True) (Filling.Left b.blanks.length 0)
        (Filling.fill s.maxNodes b.blanks 0 { board := b, occupancy := o }) :=
      Filling.fill_accounts s.maxNodes ⟨rfl, rfl, rfl, Nat.zero_le _⟩ (Nat.zero_add _)
    dsimp only [EStateM.run]
    generalize Filling.fill s.maxNodes b.blanks 0 _ = x at hfill ⊢
    -- the accounts of the filling are those of the solver
    cases x with
    | error _ _ => trivial
    | ok full after =>
      cases full with
      | true => exact hfill
      | false => exact hfill

end BacktrackingSolver

namespace CoverSolver

/-- Every row of the matrix of a puzzle has four columns. -/
private theorem wide_matrixRows {b : Board} {t : Table} (hrows : t.rows = b.matrixRows)
    (rule : Selection) (maxNodes : Option Nat) (max : Nat) :
    (t.problem rule maxNodes max).Wide 4 (t.free []) := by
  intro i hi _
  -- the row belongs to a placement, which meets four constraints
  have hlt : i < b.placements.length := by
    have hlt := (Table.mem_free.mp hi).1
    rwa [hrows, Board.matrixRows, List.length_map] at hlt
  have hcolumns : t.columns i = columnsOf b.placements[i] := by
    show columnsAt t.rows i = _
    rw [hrows, Board.columnsAt_matrixRows (List.getElem?_eq_getElem hlt)]
  show 4 ≤ (t.columns i).toFinset.card
  rw [hcolumns, List.toFinset_card_of_nodup (columnsOf_nodup _)]
  exact le_rfl

/-- The counters of a search for the first exact cover of a puzzle. -/
private theorem search_accounts (s : CoverSolver) (b : Board) :
    match s.search b (Search.solveUpTo 1) with
    | (.ok found, s') => s'.stats.solutions = found.length ∧
        (∀ l ∈ found, l.length ≤ s'.stats.maxDepth) ∧ s'.stats.maxDepth ≤ 81 ∧
        s'.stats.nodes = s'.stats.backtracks + 1 + (found.getLast?.map List.length).getD 0
    | (.error _, _) => True := by
  obtain ⟨m, t, hm, hcount, hrows, hcovered⟩ := b.exists_table
  let start : Search := { matrix := m, selection := s.selection, maxNodes := s.maxNodes }
  have hready : Search.Ready m s.selection s.maxNodes start := Search.ready_new ..
  have hnew : Search.Accounts [] 0 start := ⟨rfl, rfl, fun _ hl => absurd hl List.not_mem_nil⟩
  -- the search is new, so it has nothing to account for before the run
  have haccounts := fun h => hready.solveUpTo_accounts hcovered le_rfl hnew h
  -- each row takes four of the 324 columns away, so no more than 81 are chosen
  have hle : (t.active []).length ≤ 4 * 81 := by
    rw [Table.active_nil, List.length_range, hcount]
    exact le_rfl
  have hshallow := hready.solveUpTo_shallow hcovered le_rfl (Nat.succ_pos 3)
    (wide_matrixRows hrows _ _ _) hle (Nat.zero_le _)
  have hcleared : ∀ found s', Search.solveUpTo 1 start = .ok found s' → s'.found = #[] :=
    fun _ _ => Search.found_of_solveUpTo rfl le_rfl
  simp only [search, hm]
  simp only [Search.run, EStateM.run] at haccounts ⊢
  generalize Search.solveUpTo 1 start = x at haccounts hshallow hcleared ⊢
  -- what the run has found has been given away
  cases x with
  | error _ _ => trivial
  | ok found after =>
    obtain ⟨⟨hnodes, hsolutions, hdepth⟩, hends⟩ := haccounts fun hover => by cases hover
    rw [hcleared _ _ rfl, Array.toList_empty, List.append_nil, List.nil_append] at hsolutions hdepth
    refine ⟨hsolutions, hdepth, hshallow, ?_⟩
    rw [hnodes]
    generalize after.chosen.length = chosen at hends ⊢
    -- no row is chosen after the whole tree has been seen, otherwise those of the exact cover
    cases hends with
    | root hlt =>
      obtain rfl := List.length_eq_zero_iff.mp (Nat.lt_one_iff.mp hlt)
      show 0 + 1 + after.stats.backtracks + 0 = after.stats.backtracks + 1 + 0
      omega
    | cover _ hlast =>
      rw [hlast, Option.map_some, Option.getD_some]
      show 0 + 1 + after.stats.backtracks + _ = after.stats.backtracks + 1 + _
      omega

/-- The search over a matrix accounts for all of its nodes. -/
theorem solveOne_accounts (s : CoverSolver) (b : Board) :
    match s.solveOne b with
    | (.ok (some _), s') => s'.stats.solutions = 1 ∧ s'.stats.maxDepth = 81 ∧
        s'.stats.nodes = s'.stats.backtracks + 82
    | (.ok none, s') => s'.stats.solutions = 0 ∧ s'.stats.nodes = s'.stats.backtracks + 1
    | (.error _, _) => True := by
  have haccounts := s.search_accounts b
  have htake := s.search_eq_take b le_rfl
  rw [solveOne, search_solveOne]
  generalize s.search b _ = x at haccounts htake ⊢
  obtain ⟨result, s'⟩ := x
  cases result with
  | error _ => trivial
  | ok found =>
    obtain ⟨hsolutions, hdepth, hle, hnodes⟩ := haccounts
    obtain ⟨covers, henum, hfound⟩ := htake
    cases covers with
    -- without exact covers no row is left chosen
    | nil =>
      subst hfound
      exact ⟨hsolutions, hnodes⟩
    | cons l covers =>
      -- a row has been chosen for each cell
      have hmem : l ∈ l :: covers := List.mem_cons_self
      obtain ⟨t, ht, -⟩ := henum.exists_solution hmem
      have hlength : (l.map (idAt b.matrixRows)).length = 81 := by
        rw [List.length_map]
        exact Board.length_eq_of_coversRest ((henum.mem_iff _).mp (List.mem_map_of_mem hmem))
          (henum.nodup l hmem)
      rw [List.take_succ_cons, List.take_zero, List.map_singleton] at hfound
      subst hfound
      have hbelow := hdepth _ (List.mem_singleton.mpr rfl)
      rw [List.getLast?_singleton, Option.map_some, Option.getD_some, hlength] at hnodes
      simp only [Except.map, List.getLast?_singleton, ok_bind, ht]
      exact ⟨hsolutions, by omega, hnodes.trans (by omega)⟩

end CoverSolver

/-- The counters of searches and of both solvers account for all nodes. However often a search is
    called, its nodes are as many as the calls, the rows given up and the rows still chosen after
    the last call together; its solutions are the exact covers it has recorded, none of which has
    more rows than the depth noted, and this is no more than the number of columns. A solution of a
    puzzle has a row for each cell or a digit for each empty cell. -/
theorem counters_account (rule : Selection) (maxNodes : Option Nat) :
    (∀ (n : Nat) (rows : List (Nat × List Nat)) (m₀ m : Matrix), Matrix.create n = .ok m₀ →
      rows.foldlM (fun m r => m.addRow r.1 r.2) m₀ = .ok m →
      ∀ (calls : List Search.Request) (r : Search.Request), (∀ r' ∈ calls ++ [r], 1 ≤ r'.count) →
        let start : Search := { matrix := m, selection := rule, maxNodes }
        ((start.after calls).run r.answer).1 ≠ .error .spent →
        ((start.after calls).run r.answer).1 ≠ .error (.fault .overflow) →
        start.Accounted calls r) ∧
    (∀ (s : CoverSolver) (b : Board), match s.solveOne b with
      | (.ok (some _), s') => s'.stats.solutions = 1 ∧ s'.stats.maxDepth = 81 ∧
          s'.stats.nodes = s'.stats.backtracks + 82
      | (.ok none, s') => s'.stats.nodes = s'.stats.backtracks + 1
      | (.error _, _) => True) ∧
    ∀ (s : BacktrackingSolver) (b : Board), match s.solveOne b with
      | (.ok (some _), s') => s'.stats.solutions = 1 ∧ s'.stats.covers = 0 ∧
          s'.stats.maxDepth = b.blanks.length ∧
          s'.stats.nodes = s'.stats.backtracks + 1 + b.blanks.length
      | (.ok none, s') =>
          if b.isConsistent = true then s'.stats.nodes = s'.stats.backtracks + 1
          else s'.stats = {}
      | (.error _, _) => True := by
  refine ⟨fun n rows m₀ m hcreate hadd calls r hcounts => ?_, fun s b => ?_, fun s b => ?_⟩
  · intro start hasked hover
    -- searches, the solver over a matrix, and backtracking
    obtain ⟨t, -, -, ht⟩ := Matrix.covered_of_create hcreate hadd
    exact (Search.ready_new m rule maxNodes).accounted ht rfl hcounts hasked hover
  · have haccounts := s.solveOne_accounts b
    generalize s.solveOne b = x at haccounts ⊢
    match x, haccounts with
    | (.ok (some _), _), haccounts => exact haccounts
    | (.ok none, _), haccounts => exact haccounts.2
    | (.error _, _), _ => trivial
  · have haccounts := s.solveOne_accounts b
    generalize s.solveOne b = x at haccounts ⊢
    match x, haccounts with
    | (.ok (some _), s'), ⟨hnodes, hsolutions, hcovers, hdepth⟩ =>
      exact ⟨hsolutions, hcovers, hdepth, hnodes⟩
    | (.ok none, s'), haccounts =>
      dsimp only at haccounts ⊢
      split at haccounts
      next hb =>
        rw [if_pos hb]
        exact haccounts.nodes
      next hb =>
        rw [if_neg hb]
        exact haccounts
    | (.error _, _), _ => trivial

/-- Three calls of which the last one stops at the second of two exact covers, and a call that is
    cut off. -/
theorem counters_account_stopped_and_cut_off :
    ∃ m₀ m : Matrix, Matrix.create 3 = .ok m₀ ∧
      [(7, [0, 1]), (8, [2]), (7, [0]), (9, [1, 2]), (5, [])].foldlM
        (fun (m : Matrix) r => m.addRow r.1 r.2) m₀ = .ok m ∧
      (∀ r ∈ [.upTo 9, .upTo 3] ++ [.upTo 2], 1 ≤ Search.Request.count r) ∧
      Search.Accounted { matrix := m, selection := .minimumSize, maxNodes := some 20 }
        [.upTo 9, .upTo 3] (.upTo 2) ∧
      Search.Accounted { matrix := m, selection := .minimumSize, maxNodes := some 2 } [] .one := by
  have hruns : ([(7, [0, 1]), (8, [2]), (7, [0]), (9, [1, 2]), (5, [])].foldlM
      (fun (m : Matrix) r => m.addRow r.1 r.2) (Matrix.empty 3)).map (fun m =>
        let start : Search := { matrix := m, selection := .minimumSize, maxNodes := some 20 }
        let short : Search := { matrix := m, selection := .minimumSize, maxNodes := some 2 }
        [((start.after [.upTo 9, .upTo 3]).run (Search.Request.upTo 2).answer).1,
          (short.run Search.Request.one.answer).1]) =
      .ok [.ok [[7, 8], [7, 9]], .error (.nodeLimit 2)] := by
    decide +kernel
  obtain ⟨m, hadd, hm⟩ := exists_of_map_eq_ok hruns
  simp only [List.cons.injEq, and_true] at hm
  obtain ⟨hstopped, hcut⟩ := hm
  have hcounts : ∀ r ∈ [.upTo 9, .upTo 3] ++ [.upTo 2], 1 ≤ Search.Request.count r := by decide
  refine ⟨_, m, rfl, hadd, hcounts, ?_, ?_⟩
  · refine (counters_account .minimumSize (some 20)).1 3 _ _ m rfl hadd _ _ hcounts ?_ ?_ <;>
      rw [hstopped] <;> exact nofun
  · refine (counters_account .minimumSize (some 2)).1 3 _ _ m rfl hadd [] .one (by decide) ?_ ?_ <;>
      rw [Search.after_nil, hcut] <;> decide

/-- A puzzle without a solution, in which no digits clash. -/
def stuck : Board :=
  Board.ofList ([0, 1, 2, 3, 4, 5, 6, 7].map some ++ List.replicate 36 none ++ [some 8])

/-- The root is not given up even if there is no solution. -/
theorem not_nodes_eq_backtracks :
    ¬ ∀ (s : BacktrackingSolver) (b : Board), match s.solveOne b with
      | (.ok none, s') => s'.stats.nodes = s'.stats.backtracks
      | _ => True := by
  intro h
  have hstuck : ({} : BacktrackingSolver).solveOne stuck =
      (.ok none, { stats := { nodes := 1 } }) := by
    decide +kernel
  have hnodes := h {} stuck
  rw [hstuck] at hnodes
  exact absurd hnodes (by decide)

end Sudoku
end ExactCover
