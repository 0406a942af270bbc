import ExactCover.Proofs.Search.NodeLimit
import ExactCover.Proofs.Sudoku.CoverSolver
import ExactCover.Proofs.Sudoku.Filling

/-!
# Solvers under two limits of nodes

Each call of a solver begins to count anew. So a solver with a smaller limit gives the same answer
and keeps the same counters as one with a larger limit, or it is cut off at the first node too
many. Both solvers look at the limit when they have counted a node and at no other time.

## Key results

- `Filling.cuts_fill`: the search by backtracking
- `nodeLimit_only_cuts_off`: searches, and both solvers
-/

namespace ExactCover.Sudoku

namespace Filling

variable {α β : Type} {limit depth : Nat} {maxNodes : Option Nat} {s : Filling}

/-- Boards filled under a limit of nodes and under a smaller one. The limit is no part of the
    state. -/
def cutoff (limit : Nat) : Cutoff Filling where
  limit := limit
  nodes s := s.stats.nodes
  Bears _ := True
  lower s := s
  nodes_lower _ := rfl

/-- Under the smaller limit `y` does what `x` does under the larger one until it is cut off. -/
def Cuts (limit : Nat) (x y : Run α) : Prop := ∀ s, (cutoff limit).Cuts s x y

/-- Two computations that are cut off only, one after the other. -/
theorem Cuts.bind {x y : Run α} {f g : α → Run β} (h : Cuts limit x y)
    (hf : ∀ a, Cuts limit (f a) (g a)) : Cuts limit (x >>= f) (y >>= g) :=
  fun s => (h s).bind fun a s' _ => hf a s'

/-- An answer without a step is the same under both limits. -/
private theorem cuts_pure (a : α) : Cuts limit (pure a) (pure a) := fun _ => .pure trivial a

/-- What is read of the state is the same under both limits. -/
theorem Cuts.get_bind {f g : Filling → Run α} (h : ∀ s, Cuts limit (f s) (g s)) :
    Cuts limit (get >>= f) (get >>= g) := fun s => .get_bind (h s s)

/-- A change that leaves the counters alone. -/
private theorem cuts_modify {f : Filling → Filling} (hf : ∀ s, (f s).stats = s.stats) :
    Cuts limit (modify f) (modify f) :=
  fun s => .of_nodes_eq trivial (congrArg Stats.nodes (hf s)) rfl

/-- The state is the same under both limits. -/
private theorem mapState_lower {ε : Type} (limit : Nat) (r : EStateM.Result ε Filling α) :
    mapState (cutoff limit).lower r = r := by
  cases r <;> rfl

/-- Counting anything but nodes. -/
private theorem cuts_count {f : Stats → Except Fault Stats}
    (hf : ∀ {stats stats'}, f stats = .ok stats' → stats'.nodes = stats.nodes) :
    Cuts limit (count f) (count f) := by
  intro s
  refine .of_nodes_eq trivial ?_ (mapState_lower _ _).symm
  rw [count_eq]
  cases hst : f s.stats with
  | ok stats => exact hf hst
  | error cause => rfl

/-! ## Nodes -/

/-- A node is entered under both limits or under the larger one alone. -/
private theorem cuts_enter (hle : ∀ larger, maxNodes = some larger → limit ≤ larger) (depth : Nat) :
    Cuts limit (enter maxNodes depth) (enter (some limit) depth) := by
  intro s
  have hlower : (cutoff limit).lower s = s := rfl
  -- the counter of nodes may be full under both limits
  cases hst : s.stats.enter depth with
  | error cause =>
    refine .of_nodes_eq trivial ?_ ?_
    · simp only [enter_eq, hst]
      rfl
    · simp only [mapState_lower, hlower, enter_eq, hst]
  | ok stats =>
    have hfinal : finalState (enter maxNodes depth s) = { s with stats } := by
      simp only [enter_eq, hst]
      split <;> rfl
    refine .of_node hfinal trivial (Stats.enter_nodes hst) (fun hwithin => ?_) fun habove => ?_
    · -- neither limit is exceeded
      have hlarger : stats.exceeds maxNodes = none := Stats.exceeds_eq_none hle hwithin
      have hsmaller : stats.exceeds (some limit) = none :=
        Stats.exceeds_eq_none (fun _ h => Nat.le_of_eq (Option.some.inj h)) hwithin
      simp only [mapState_lower, hlower, enter_eq, hst, hlarger, hsmaller]
    · -- this is the first node above the smaller limit
      have hsmaller : stats.exceeds (some limit) = some limit := Stats.exceeds_eq_some habove
      simp only [hlower, enter_eq, hst, hsmaller]
      rfl

/-- The digits of a cell are tried. -/
private theorem cuts_tryDigits {below below' : Run Bool} (hbelow : Cuts limit below below')
    (c : Cell) (digits : List Digit) :
    Cuts limit (tryDigits below c digits) (tryDigits below' c digits) := by
  -- induction on the digits not tried yet, step by step along the filling
  induction digits with
  | nil => exact cuts_pure _
  | cons d digits ih =>
    rw [tryDigits, tryDigits]
    refine .get_bind fun s => ?_
    split
    · refine .bind (cuts_modify fun _ => rfl) fun _ => .bind hbelow fun full => ?_
      cases full with
      | true => exact cuts_pure _
      | false =>
        refine .bind (cuts_modify fun _ => rfl) fun _ => ?_
        exact .bind (cuts_count Stats.backtrack_nodes) fun _ => ih
    · exact ih

/-- The cells are filled under both limits until the smaller one is met. -/
theorem cuts_fill (hle : ∀ larger, maxNodes = some larger → limit ≤ larger) (cells : List Cell)
    (depth : Nat) : Cuts limit (fill maxNodes cells depth) (fill (some limit) cells depth) := by
  -- induction on the empty cells
  induction cells generalizing depth with
  | nil =>
    rw [fill, fill]
    exact .bind (cuts_enter hle depth) fun _ =>
      .bind (cuts_count Stats.solve_nodes) fun _ => cuts_pure _
  | cons c cells ih =>
    rw [fill, fill]
    exact .bind (cuts_enter hle depth) fun _ => cuts_tryDigits (ih _) c _

end Filling

/-! ## Calls -/

variable {α β : Type} {limit : Nat}

/-- A call under the limit `limit` ends as one under a larger limit does, unless that one counts
    more nodes: then it ends at the first node too many. Both are given by their results and by the
    counters kept. -/
def CutOff (limit : Nat) (larger smaller : Except Halt α × Stats) : Prop :=
  (larger.2.nodes ≤ limit → smaller = larger) ∧
  (limit < larger.2.nodes →
    smaller.1 = .error (.nodeLimit limit) ∧ smaller.2.nodes = limit + 1)

/-- What is made of an answer does not matter. -/
private theorem CutOff.of_answer {larger smaller : Except Halt α × Stats}
    {result result' : Except Halt β} (h : CutOff limit larger smaller)
    (hsame : smaller.1 = larger.1 → result' = result)
    (herror : ∀ e, smaller.1 = .error e → result' = .error e) :
    CutOff limit (result, larger.2) (result', smaller.2) := by
  refine ⟨fun hle => ?_, fun hlt => ?_⟩
  · rw [hsame (congrArg Prod.fst (h.1 hle)), h.1 hle]
  · obtain ⟨hcut, hnodes⟩ := h.2 hlt
    exact ⟨herror _ hcut, hnodes⟩

namespace CoverSolver

/-- The solver with another limit of nodes. -/
def withLimit (limit : Nat) (s : CoverSolver) : CoverSolver := { s with maxNodes := some limit }

/-- A search over the matrix of a puzzle is only cut off. -/
private theorem search_cutOff {s : CoverSolver}
    (hle : ∀ larger, s.maxNodes = some larger → limit ≤ larger) (b : Board) (max : Nat) :
    CutOff limit
      ((s.search b (Search.solveUpTo max)).1, (s.search b (Search.solveUpTo max)).2.stats)
      (((s.withLimit limit).search b (Search.solveUpTo max)).1,
        ((s.withLimit limit).search b (Search.solveUpTo max)).2.stats) := by
  -- the two searches begin with the same matrix, at no nodes
  obtain ⟨m, hm, -⟩ := b.exists_matrix
  let start : Search := { matrix := m, selection := s.selection, maxNodes := s.maxNodes }
  obtain ⟨-, -, hsame, hcut⟩ := Search.run_answer_withLimit (s := start) limit (.upTo max) hle
  simp only [Search.Request.answer] at hsame hcut
  simp only [search, hm]
  refine ⟨fun hwithin => ?_, fun habove => hcut (Nat.zero_le _) habove⟩
  have hlower := hsame hwithin
  exact Prod.ext (congrArg (·.1) hlower) (congrArg (·.2.stats) hlower)

/-- The answer of the solver over a matrix is only cut off. -/
theorem solveOne_cutOff {s : CoverSolver}
    (hle : ∀ larger, s.maxNodes = some larger → limit ≤ larger) (b : Board) :
    CutOff limit ((s.solveOne b).1, (s.solveOne b).2.stats)
      (((s.withLimit limit).solveOne b).1, ((s.withLimit limit).solveOne b).2.stats) := by
  have hsearch := search_cutOff hle b 1
  simp only [solveOne, search_solveOne]
  refine hsearch.of_answer (fun hsame => ?_) fun e herror => ?_
  · dsimp only at hsame
    rw [hsame]
  · dsimp only at herror
    rw [herror]
    rfl

/-- Its count of solutions is only cut off. -/
theorem countSolutions_cutOff {s : CoverSolver}
    (hle : ∀ larger, s.maxNodes = some larger → limit ≤ larger) (b : Board) (max : Nat) :
    CutOff limit ((s.countSolutions b max).1, (s.countSolutions b max).2.stats)
      (((s.withLimit limit).countSolutions b max).1,
        ((s.withLimit limit).countSolutions b max).2.stats) :=
  (search_cutOff hle b max).of_answer (congrArg (Except.map List.length))
    fun _ => congrArg (Except.map List.length)

end CoverSolver

namespace BacktrackingSolver

/-- The solver with another limit of nodes. -/
def withLimit (limit : Nat) (s : BacktrackingSolver) : BacktrackingSolver :=
  { s with maxNodes := some limit }

/-- The answer of backtracking is only cut off. -/
theorem solveOne_cutOff {s : BacktrackingSolver}
    (hle : ∀ larger, s.maxNodes = some larger → limit ≤ larger) (b : Board) :
    CutOff limit ((s.solveOne b).1, (s.solveOne b).2.stats)
      (((s.withLimit limit).solveOne b).1, ((s.withLimit limit).solveOne b).2.stats) := by
  simp only [solveOne, withLimit]
  -- clashing givens are found before the first node
  cases Occupancy.ofBoard? b with
  | none => exact ⟨fun _ => rfl, fun hlt => absurd hlt (Nat.not_lt_zero limit)⟩
  | some occupancy =>
    obtain ⟨-, -, hsame, haborted⟩ :=
      Filling.cuts_fill hle b.blanks 0 { board := b, occupancy }
    have haborted := haborted (Nat.zero_le _)
    have hlower : ∀ s, (Filling.cutoff limit).lower s = s := fun _ => rfl
    rw [hlower] at hsame haborted
    -- the two fillings begin with the same board, at no nodes
    simp only [EStateM.run]
    generalize Filling.fill s.maxNodes b.blanks 0 _ = larger at hsame haborted
    generalize Filling.fill (some limit) b.blanks 0 _ = smaller at hsame haborted
    refine ⟨fun hwithin => ?_, fun habove => ?_⟩
    · have hsmaller : smaller = larger := by
        rw [← Filling.mapState_lower limit larger]
        cases larger <;> exact hsame hwithin
      subst hsmaller
      cases smaller <;> rfl
    · obtain ⟨s', hsmaller, hnodes⟩ : ∃ s', smaller = .error (.nodeLimit limit) s' ∧
          s'.stats.nodes = limit + 1 := by
        cases larger <;> exact haborted habove
      subst hsmaller
      exact ⟨rfl, hnodes⟩

end BacktrackingSolver

/-- A limit of nodes only cuts runs off. As long as a search under a larger limit, or under none,
    stays within the smaller one over all its calls, the two give the same answers and leave the
    same counters and the same matrix. In the call in which it does not, the search under the
    smaller limit is cut off at the first node too many, and refuses every later call. It is the same
    with each call of the solvers. -/
theorem nodeLimit_only_cuts_off {limit : Nat} {maxNodes : Option Nat}
    (hle : ∀ larger, maxNodes = some larger → limit ≤ larger) :
    (∀ (m : Matrix) (selection : Selection) (calls : List Search.Request) (r : Search.Request),
      let s := ({ matrix := m, selection, maxNodes } : Search).after calls
      let s' := ({ matrix := m, selection, maxNodes := some limit } : Search).after calls
      ((s.run r.answer).2.stats.nodes ≤ limit →
        (s'.run r.answer).1 = (s.run r.answer).1 ∧
        (s'.run r.answer).2.stats = (s.run r.answer).2.stats ∧
        (s'.run r.answer).2.matrix = (s.run r.answer).2.matrix) ∧
      (s.stats.nodes ≤ limit → limit < (s.run r.answer).2.stats.nodes →
        (s'.run r.answer).1 = .error (.nodeLimit limit) ∧
        (s'.run r.answer).2.stats.nodes = limit + 1 ∧
        ∀ (later : List Search.Request) (r' : Search.Request),
          (((s'.run r.answer).2.after later).run r'.answer).1 = .error .spent)) ∧
    (∀ (b : Board) (s : CoverSolver), s.maxNodes = maxNodes →
      CutOff limit ((s.solveOne b).1, (s.solveOne b).2.stats)
        (((s.withLimit limit).solveOne b).1, ((s.withLimit limit).solveOne b).2.stats) ∧
      ∀ max, CutOff limit ((s.countSolutions b max).1, (s.countSolutions b max).2.stats)
        (((s.withLimit limit).countSolutions b max).1,
          ((s.withLimit limit).countSolutions b max).2.stats)) ∧
    ∀ (b : Board) (s : BacktrackingSolver), s.maxNodes = maxNodes →
      CutOff limit ((s.solveOne b).1, (s.solveOne b).2.stats)
        (((s.withLimit limit).solveOne b).1, ((s.withLimit limit).solveOne b).2.stats) := by
  -- searches, the solver over a matrix, and backtracking
  refine ⟨fun m selection calls r => ?_, fun b s hs => ?_, fun b s hs => ?_⟩
  · let start : Search := { matrix := m, selection, maxNodes }
    -- before the call the searches differ in their limits alone
    have hbefore : (start.after calls).stats.nodes ≤ limit →
        (start.withLimit limit).after calls = (start.after calls).withLimit limit ∧
        ∀ larger, (start.after calls).maxNodes = some larger → limit ≤ larger := by
      intro hnodes
      obtain ⟨hafter, hmax, -⟩ := Search.after_withLimit (s := start) hle hnodes
      exact ⟨hafter, hmax ▸ hle⟩
    refine ⟨fun hwithin => ?_, fun hnodes habove => ?_⟩
    · -- the nodes are within the limit before the call, too
      have hgrows := Search.nodes_le_answer (start.after calls) r
      obtain ⟨hafter, hmax⟩ := hbefore (Nat.le_trans hgrows hwithin)
      obtain ⟨-, -, hsame, -⟩ := Search.run_answer_withLimit limit r hmax
      have hrun := hsame hwithin
      rw [← hafter] at hrun
      exact ⟨congrArg (·.1) hrun, congrArg (·.2.stats) hrun, congrArg (·.2.matrix) hrun⟩
    · obtain ⟨hafter, hmax⟩ := hbefore hnodes
      obtain ⟨-, -, -, hcut⟩ := Search.run_answer_withLimit limit r hmax
      obtain ⟨herror, hcount⟩ := hcut hnodes habove
      rw [← hafter] at herror hcount
      refine ⟨herror, hcount, fun later r' => ?_⟩
      -- a search that is cut off is spent
      have hspent := Search.spent_of_error (Prod.ext herror rfl)
      exact congrArg Prod.fst (Search.run_after_of_spent hspent later r')
  · subst hs
    exact ⟨CoverSolver.solveOne_cutOff hle b, CoverSolver.countSolutions_cutOff hle b⟩
  · subst hs
    exact BacktrackingSolver.solveOne_cutOff hle b

/-- The first call stays within the smaller limit, the second is cut off under both limits. -/
theorem nodeLimit_only_cuts_off_second_call :
    (∀ larger, some 9 = some larger → 7 ≤ larger) ∧
    (∃ m : Matrix, [(7, [0, 1]), (8, [2]), (7, [0]), (9, [1, 2]), (5, [])].foldlM
        (fun (m : Matrix) r => m.addRow r.1 r.2) (Matrix.empty 3) = .ok m ∧
      let s : Search := { matrix := m, selection := .minimumSize, maxNodes := some 9 }
      let s' : Search := { matrix := m, selection := .minimumSize, maxNodes := some 7 }
      let r : Search.Request := .upTo 9
      ((s.run r.answer).2.stats.nodes ≤ 7 ∧ (s'.run r.answer).1 = (s.run r.answer).1 ∧
        (s'.run r.answer).2.stats = (s.run r.answer).2.stats ∧
        (s'.run r.answer).2.matrix = (s.run r.answer).2.matrix) ∧
      (s.after [r]).stats.nodes ≤ 7 ∧ 7 < ((s.after [r]).run r.answer).2.stats.nodes ∧
      ((s'.after [r]).run r.answer).1 = .error (.nodeLimit 7) ∧
      ((s'.after [r]).run r.answer).2.stats.nodes = 8 ∧
      ∀ later r', (((((s'.after [r]).run r.answer).2.after later).run
        (Search.Request.answer r')).1 = .error .spent)) ∧
    let s : BacktrackingSolver := { maxNodes := some 9 }
    7 < (s.solveOne Board.empty).2.stats.nodes ∧
      ((s.withLimit 7).solveOne Board.empty).1 = .error (.nodeLimit 7) ∧
      ((s.withLimit 7).solveOne Board.empty).2.stats.nodes = 8 := by
  have hle : ∀ larger, some 9 = some larger → 7 ≤ larger := by simp
  have hnodes : ([(7, [0, 1]), (8, [2]), (7, [0]), (9, [1, 2]), (5, [])].foldlM
      (fun (m : Matrix) r => m.addRow r.1 r.2) (Matrix.empty 3)).map (fun m =>
        let s : Search := { matrix := m, selection := .minimumSize, maxNodes := some 9 }
        let r : Search.Request := .upTo 9
        ((s.run r.answer).2.stats.nodes, ((s.after [r]).run r.answer).2.stats.nodes)) =
      .ok (5, 10) := by
    decide +kernel
  have hboard : (({ maxNodes := some 9 } : BacktrackingSolver).solveOne Board.empty).2.stats.nodes =
      10 := by
    decide +kernel
  obtain ⟨m, hadd, hm⟩ := exists_of_map_eq_ok hnodes
  obtain ⟨hfirst, hsecond⟩ := Prod.mk.inj hm
  obtain ⟨hsearch, -, hfill⟩ := nodeLimit_only_cuts_off hle
  have hwithin := (hsearch m .minimumSize [] (.upTo 9)).1
  have hcut := (hsearch m .minimumSize [.upTo 9] (.upTo 9)).2
  have hfill := (hfill Board.empty { maxNodes := some 9 } rfl).2
  simp only [Search.after_nil] at hwithin
  dsimp only at hfill
  have hfirst' : _ ≤ 7 := Nat.le_trans (Nat.le_of_eq hfirst) (by decide)
  have hsecond' : 7 < _ := Nat.lt_of_lt_of_eq (by decide) hsecond.symm
  have hboard' : 7 < _ := Nat.lt_of_lt_of_eq (by decide) hboard.symm
  exact ⟨hle, ⟨m, hadd, ⟨hfirst', hwithin hfirst'⟩, hfirst', hsecond', hcut hfirst' hsecond'⟩,
    hboard', hfill hboard'⟩

end ExactCover.Sudoku
