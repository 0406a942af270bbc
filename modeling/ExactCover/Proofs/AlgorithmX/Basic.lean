import ExactCover.Proofs.Selection
import ExactCover.Search.Basic
import Mathlib.Data.Finset.Card
import Mathlib.Data.Finset.Disjoint

/-!
# Algorithm X on lists

The search for exact covers without links: the columns and the rows that remain at a node of the
search tree are lists, and the tree below a choice is searched on shorter lists. It sees a row as
a set of columns only. It counts on its own what the search over a linked matrix counts, and it
ends for the same reasons.

## Key results

- `nodeStep_eq`, `coverStep_eq`, `backtrackStep_eq`, `solutionStep_eq`: its counters are those of
  any search
- `explore_eq`: the recursion of the search
-/

namespace ExactCover

/-- A computation that has succeeded goes on in the state it has left. -/
theorem bind_of_ok {ε σ α β : Type} {x : EStateM ε σ α} {f : α → EStateM ε σ β} {a : α} {s s' : σ}
    (h : x s = .ok a s') : (x >>= f) s = f a s' := by
  -- `show` opens the monad's `bind`, which is not reducible
  show EStateM.bind x f s = f a s'
  rw [EStateM.bind, h]

/-- A computation that has failed does not go on. -/
theorem bind_of_error {ε σ α β : Type} {x : EStateM ε σ α} {f : α → EStateM ε σ β} {e : ε}
    {s s' : σ} (h : x s = .error e s') : (x >>= f) s = .error e s' := by
  show EStateM.bind x f s = .error e s'
  rw [EStateM.bind, h]

/-- Computations that do the same first step go on alike if they do so from where it leads. -/
theorem bind_congr_of_ok {ε σ α β : Type} {x y : EStateM ε σ α} {f g : α → EStateM ε σ β} {s : σ}
    (hxy : x s = y s) (h : ∀ a s', y s = .ok a s' → f a s' = g a s') :
    (x >>= f) s = (y >>= g) s := by
  cases hy : y s with
  | ok a s' => rw [bind_of_ok (hxy.trans hy), bind_of_ok hy, h a s' hy]
  | error e s' => rw [bind_of_error (hxy.trans hy), bind_of_error hy]

/-- A computation in two steps that has succeeded has succeeded in both. -/
theorem exists_of_bind_eq_ok {ε σ α β : Type} {x : EStateM ε σ α} {f : α → EStateM ε σ β} {b : β}
    {s s'' : σ} (h : (x >>= f) s = .ok b s'') : ∃ a s', x s = .ok a s' ∧ f a s' = .ok b s'' := by
  cases hx : x s with
  | ok a s' => exact ⟨a, s', rfl, (bind_of_ok hx).symm.trans h⟩
  | error e s' => exact nomatch (bind_of_error hx).symm.trans h

/-- A computation that has a value leaves a state behind. -/
theorem exists_of_run'_eq_some {ε σ α : Type} {x : EStateM ε σ α} {s : σ} {a : α}
    (h : x.run' s = some a) : ∃ s', x s = .ok a s' := by
  delta EStateM.run' EStateM.run at h
  cases hx : x s with
  | ok b s' =>
    rw [hx] at h
    exact ⟨s', by rw [Option.some.inj h]⟩
  | error e s' =>
    rw [hx] at h
    cases h

namespace AlgorithmX

open Search (Outcome)

/-- What a search sees of the rows, and what it is asked for. -/
structure Problem (α : Type) where
  /-- The columns of a row. -/
  columns : α → Finset Nat
  selection : Selection
  maxNodes : Option Nat
  wanted : Nat

/-- The counters of a search and the exact covers it has found, the latest last. -/
structure Progress (α : Type) where
  stats : Stats := {}
  found : List (List α) := []

/-- A computation of a search. If it fails, the progress up to that moment is kept. -/
abbrev Trial (α : Type) := EStateM Halt (Progress α)

variable {α β : Type}

/-- Changes the counters. -/
def count (f : Stats → Except Fault Stats) : Trial α Unit := do
  match f (← get).stats with
  | .ok stats => modify fun p => { p with stats }
  | .error cause => throw (.fault cause)

/-- A count that succeeds changes the counters and nothing else. -/
theorem count_of_ok {f : Stats → Except Fault Stats} {p : Progress α} {stats : Stats}
    (h : f p.stats = .ok stats) : count f p = .ok () { p with stats } := by
  rw [count, bind_of_ok (x := get) rfl]
  simp only [h]
  rfl

/-- A count that fails leaves the progress as it was. -/
theorem count_of_error {f : Stats → Except Fault Stats} {p : Progress α} {cause : Fault}
    (h : f p.stats = .error cause) : count f p = .error (.fault cause) p := by
  rw [count, bind_of_ok (x := get) rfl]
  simp only [h]
  rfl

/-! ## Counters

Each step raises one counter by one, as long as a word can hold it. -/

/-- Keeps counters of which the one just raised is `n`. -/
def kept (n : Nat) (stats : Stats) : Except Fault Stats :=
  if n < wordBound then .ok stats else .error .overflow

/-- One more node, at the given depth. -/
def nodeStep (depth : Nat) (s : Stats) : Except Fault Stats :=
  kept (s.nodes + 1) { s with nodes := s.nodes + 1, maxDepth := max s.maxDepth depth }

/-- One more covered column. -/
def coverStep (s : Stats) : Except Fault Stats :=
  kept (s.covers + 1) { s with covers := s.covers + 1 }

/-- One more row given up. -/
def backtrackStep (s : Stats) : Except Fault Stats :=
  kept (s.backtracks + 1) { s with backtracks := s.backtracks + 1 }

/-- One more exact cover. -/
def solutionStep (s : Stats) : Except Fault Stats :=
  kept (s.solutions + 1) { s with solutions := s.solutions + 1 }

/-- Addition of words fails where a raised counter is not kept. -/
private theorem kept_eq (n : Nat) (f : Nat → Stats) :
    kept (n + 1) (f (n + 1)) = (do return f (← Word.add n 1)) := by
  rw [kept, Word.add]
  split
  · rfl
  · rfl

/-- A node is counted as any search counts it. -/
theorem nodeStep_eq (depth : Nat) : nodeStep depth = (·.enter depth) := by
  funext s
  exact kept_eq s.nodes fun nodes => { s with nodes, maxDepth := max s.maxDepth depth }

/-- A covered column is counted as any search counts it. -/
theorem coverStep_eq : coverStep = Stats.cover := by
  funext s
  exact kept_eq s.covers fun covers => { s with covers }

/-- A row given up is counted as any search counts it. -/
theorem backtrackStep_eq : backtrackStep = Stats.backtrack := by
  funext s
  exact kept_eq s.backtracks fun backtracks => { s with backtracks }

/-- An exact cover is counted as any search counts it. -/
theorem solutionStep_eq : solutionStep = Stats.solve := by
  funext s
  exact kept_eq s.solutions fun solutions => { s with solutions }

/-! ## The search -/

/-- Counts a number of covered columns. -/
def countCovers : Nat → Trial α Unit
  | 0 => pure ()
  | k + 1 => do
    count coverStep
    countCovers k

/-- Covered columns are counted one after the other. -/
theorem countCovers_succ (k : Nat) :
    (countCovers (k + 1) : Trial α Unit) = (do count (·.cover); countCovers k) := by
  rw [countCovers, coverStep_eq]

/-- Tries rows in turn until the search below one of them has stopped. -/
def tryEach (below : β → Trial α Outcome) : List β → Trial α Outcome
  | [] => return .exhausted
  | r :: rs => do
    match ← below r with
    | .stopped => return .stopped
    | .exhausted =>
      count backtrackStep
      tryEach below rs

/-- The first row is tried, and given up if the search goes on behind it. -/
theorem tryEach_cons (below : β → Trial α Outcome) (r : β) (rs : List β) :
    tryEach below (r :: rs) = (do
      match ← below r with
      | .stopped => return .stopped
      | .exhausted =>
        count (·.backtrack)
        tryEach below rs) := by
  rw [tryEach, backtrackStep_eq]

namespace Problem

variable (prob : Problem α)

/-- Counts a node, and goes on only within the limit. -/
def enter (depth : Nat) : Trial α Unit := do
  count (nodeStep depth)
  let nodes := (← get).stats.nodes
  match prob.maxNodes with
  | some limit => if limit < nodes then throw (.nodeLimit limit)
  | none => pure ()

/-- The limit is exceeded here where it is exceeded in any search. -/
theorem enter_eq (depth : Nat) : prob.enter depth = (do
    count (·.enter depth)
    if let some limit := (← get).stats.exceeds prob.maxNodes then
      throw (.nodeLimit limit)) := by
  rw [enter, nodeStep_eq]
  -- both count the node; what remains is the limit
  congr 1
  funext _
  congr 1
  funext p
  rw [Stats.exceeds]
  cases prob.maxNodes with
  | none => rfl
  | some limit =>
    -- the two tests are one comparison
    by_cases habove : limit < p.stats.nodes
    · rw [Option.filter_some_pos (by simpa using habove)]
      exact if_pos habove
    · rw [Option.filter_some_neg (by simpa using habove)]
      exact if_neg habove

/-- Keeps the rows chosen as an exact cover. -/
def emit (chosen : List α) : Trial α Outcome := do
  modify fun p => { p with found := p.found ++ [chosen] }
  count solutionStep
  return if prob.wanted ≤ (← get).found.length then .stopped else .exhausted

/-- The rows chosen are kept and counted. -/
theorem emit_eq (chosen : List α) : prob.emit chosen = (do
    modify fun p => { p with found := p.found ++ [chosen] }
    count (·.solve)
    return if prob.wanted ≤ (← get).found.length then .stopped else .exhausted) := by
  rw [emit, solutionStep_eq]

/-- The remaining rows that contain a column. -/
def containing (rows : List α) (c : Nat) : List α := rows.filter (c ∈ prob.columns ·)

/-- The column to branch on, by the numbers of remaining rows. -/
def branch (cols : List Nat) (rows : List α) : Option Nat :=
  prob.selection.choose cols fun c => (prob.containing rows c).length

/-- The columns that remain when a row is chosen. -/
def colsWithout (cols : List Nat) (r : α) : List Nat := cols.filter (· ∉ prob.columns r)

/-- The rows that remain when a row is chosen. -/
def rowsWithout (rows : List α) (r : α) : List α :=
  rows.filter fun r' => Disjoint (prob.columns r) (prob.columns r')

variable {prob} {cols : List Nat} {rows : List α} {c : Nat} {r : α}

/-- Choosing a row of a remaining column leaves fewer columns. -/
theorem length_colsWithout_lt (hc : prob.branch cols rows = some c)
    (hr : r ∈ prob.containing rows c) : (prob.colsWithout cols r).length < cols.length := by
  refine List.length_filter_lt_length_iff_exists.mpr ⟨c, Selection.mem_of_choose_eq_some hc, ?_⟩
  rw [containing, List.mem_filter, decide_eq_true_eq] at hr
  simpa using hr.2

/-- The tree can be branched on as long as columns remain. -/
private theorem branch_eq_none : prob.branch cols rows = none ↔ cols = [] :=
  Selection.choose_eq_none

/-- Induction over the search tree. -/
@[elab_as_elim]
theorem tree_induction (prob : Problem α) {P : List Nat → List α → Prop}
    (leaf : ∀ rows, P [] rows)
    (branch : ∀ cols rows c, prob.branch cols rows = some c →
      (∀ r ∈ prob.containing rows c, P (prob.colsWithout cols r) (prob.rowsWithout rows r)) →
      P cols rows)
    (cols : List Nat) (rows : List α) : P cols rows := by
  -- every choice leaves fewer columns
  induction hn : cols.length using Nat.strong_induction_on generalizing cols rows with
  | h n ih =>
    subst hn
    cases hc : prob.branch cols rows with
    -- a leaf
    | none =>
      rw [branch_eq_none.mp hc]
      exact leaf rows
    -- an inner node
    | some c =>
      exact branch cols rows c hc fun r hr => ih _ (length_colsWithout_lt hc hr) _ _ rfl

/-- Searches the tree below a node at the given depth, where the columns `cols` and the rows
    `rows` remain and the rows `chosen` have been chosen on the way. -/
def explore (prob : Problem α) (cols : List Nat) (rows chosen : List α) (depth : Nat) :
    Trial α Outcome := do
  prob.enter depth
  if cols = [] then
    prob.emit chosen
  else
    match _hc : prob.branch cols rows with
    | none => return .exhausted
    | some c =>
      if prob.containing rows c = [] then
        return .exhausted
      else
        count coverStep
        tryEach (fun ⟨r, hr⟩ => do
            countCovers ((prob.columns r).card - 1)
            explore prob (prob.colsWithout cols r) (prob.rowsWithout rows r) (chosen ++ [r])
              (depth + 1))
          (prob.containing rows c).attach
termination_by cols.length
decreasing_by exact length_colsWithout_lt _hc hr

/-- The exact covers that a search finds, or why it fails, and its counters at the end. -/
def solve (prob : Problem α) (cols : List Nat) (rows : List α) :
    Except Halt (List (List α)) × Stats :=
  match (prob.explore cols rows [] 0).run {} with
  | .ok _ p => (.ok p.found, p.stats)
  | .error halt p => (.error halt, p.stats)

end Problem

/-- That a row belongs to the list is known for the recursion only. -/
private theorem tryEach_attach {l : List β} (below : β → Trial α Outcome) :
    tryEach (fun x : { r // r ∈ l } => below x.1) l.attach = tryEach below l := by
  -- over every list of such rows, as the recursion leaves `l.attach`
  have hmap : ∀ l' : List { r // r ∈ l },
      tryEach (fun x : { r // r ∈ l } => below x.1) l' = tryEach below (l'.map (·.1)) := by
    intro l'
    induction l' with
    | nil => rfl
    | cons x l' ih =>
      rw [List.map_cons, tryEach, tryEach, ih]
  rw [hmap, List.attach_map_subtype_val]

namespace Problem

/-- The search of the tree below a choice. -/
def exploreRow (prob : Problem α) (cols : List Nat) (rows chosen : List α) (depth : Nat) (r : α) :
    Trial α Outcome := do
  countCovers ((prob.columns r).card - 1)
  prob.explore (prob.colsWithout cols r) (prob.rowsWithout rows r) (chosen ++ [r]) (depth + 1)

/-- The recursion of the search. -/
theorem explore_eq (prob : Problem α) (cols : List Nat) (rows chosen : List α) (depth : Nat) :
    prob.explore cols rows chosen depth = (do
      prob.enter depth
      if cols = [] then
        prob.emit chosen
      else
        match prob.branch cols rows with
        | none => return .exhausted
        | some c =>
          if prob.containing rows c = [] then
            return .exhausted
          else
            count (·.cover)
            tryEach (prob.exploreRow cols rows chosen depth) (prob.containing rows c)) := by
  -- the node is entered in the same way
  rw [explore, coverStep_eq]
  congr 1
  funext _
  -- a leaf is the same on both sides; the rest differs in what is known of the rows
  split
  · rfl
  · split
    next h => simp only [h]
    next c h =>
      simp only [h]
      rw [← tryEach_attach (prob.exploreRow cols rows chosen depth)]
      rfl

end Problem
end AlgorithmX
end ExactCover
