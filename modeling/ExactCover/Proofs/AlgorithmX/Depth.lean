import ExactCover.Proofs.AlgorithmX.Covers
import ExactCover.Proofs.Yields
import ExactCover.Proofs.Stats

/-!
# How deep a search goes

Every row chosen takes away at least a certain number of columns, so the number of columns bounds
the number of rows chosen at the same time.

## Key results

- `explore_shallow`: the search below a node
-/

namespace ExactCover.AlgorithmX.Problem

open Search (Outcome)

variable {α β : Type} {prob : Problem α} {cols : List Nat} {rows : List α} {c k bound depth : Nat}
  {r : α} {p : Progress α}

/-- No node noted so far is deeper than the bound. -/
def Shallow (bound : Nat) (p : Progress α) : Prop := p.stats.maxDepth ≤ bound

/-- The rows that are not empty have at least `k` columns each. -/
def Wide (prob : Problem α) (k : Nat) (rows : List α) : Prop :=
  ∀ r ∈ rows, (prob.columns r).Nonempty → k ≤ (prob.columns r).card

theorem Wide.without (h : prob.Wide k rows) (r : α) : prob.Wide k (prob.rowsWithout rows r) :=
  fun r' hr' => h r' (mem_rowsWithout.mp hr').1

/-- A row takes its columns away. -/
private theorem length_colsWithout (hin : prob.Within cols rows) (hcols : cols.Nodup)
    (hr : r ∈ rows) :
    (prob.colsWithout cols r).length + (prob.columns r).card = cols.length := by
  have hfilter : (cols.filter (· ∈ prob.columns r)).length = (prob.columns r).card := by
    rw [← List.toFinset_card_of_nodup (hcols.filter _)]
    congr 1
    ext d
    simp only [List.mem_toFinset, List.mem_filter, decide_eq_true_eq]
    exact and_iff_right_of_imp (hin r hr d)
  have hsplit := List.length_eq_length_filter_add (l := cols) (· ∈ prob.columns r)
  rw [← hfilter, colsWithout, hsplit, Nat.add_comm]
  simp only [decide_not]

/-! ## Steps -/

/-- Counting anything but nodes notes no depth. -/
private theorem count_shallow {f : Stats → Except Fault Stats}
    (hf : ∀ {stats stats'}, f stats = .ok stats' → stats'.maxDepth = stats.maxDepth)
    (h : Shallow bound p) : Yields (Shallow bound) (fun _ => Shallow bound) (count f p) := by
  cases hst : f p.stats with
  | ok stats =>
    rw [count_of_ok hst]
    exact (hf hst).trans_le h
  | error cause =>
    rw [count_of_error hst]
    trivial

/-- Covered columns note no depth. -/
private theorem countCovers_shallow (n : Nat) (h : Shallow bound p) :
    Yields (Shallow bound) (fun _ => Shallow bound) (countCovers n p) := by
  induction n generalizing p with
  | zero => exact h
  | succ n ih =>
    rw [countCovers_succ]
    exact (count_shallow Stats.cover_maxDepth h).bind fun _ _ h => ih h

/-- The depth of a node is noted. -/
private theorem enter_shallow (hdepth : depth ≤ bound) (h : Shallow bound p) :
    Yields (Shallow bound) (fun _ => Shallow bound) (prob.enter depth p) := by
  rw [enter_eq]
  -- the node is counted, and its depth is within the bound
  have hcount : Yields (Shallow bound) (fun _ => Shallow bound) (count (·.enter depth) p) := by
    cases hst : p.stats.enter depth with
    | ok stats =>
      rw [count_of_ok hst]
      obtain rfl := Stats.enter_eq_add hst
      exact max_le h hdepth
    | error cause =>
      rw [count_of_error hst]
      trivial
  -- what the limit says changes no counter
  refine hcount.bind fun _ p' h' => .step (x := get) rfl ?_
  cases p'.stats.exceeds prob.maxNodes <;> exact h'

/-- Keeping an exact cover notes no depth. -/
private theorem emit_shallow (chosen : List α) (h : Shallow bound p) :
    Yields (Shallow bound) (fun _ => Shallow bound) (prob.emit chosen p) := by
  let p₁ : Progress α := { p with found := p.found ++ [chosen] }
  have hpush : (modify fun p => { p with found := p.found ++ [chosen] } : Trial α Unit) p =
    .ok () p₁ := rfl
  have h₁ : Shallow bound p₁ := h
  rw [emit_eq]
  refine .step hpush ?_
  refine (count_shallow Stats.solve_maxDepth h₁).bind fun _ p' h' => .step (x := get) rfl ?_
  exact h'

/-- Rows are tried in turn, each of them below the bound. -/
private theorem tryEach_shallow {below : β → Trial α Outcome} {rs : List β}
    (hbelow : ∀ r ∈ rs, ∀ p, Shallow bound p →
      Yields (Shallow bound) (fun _ => Shallow bound) (below r p)) (h : Shallow bound p) :
    Yields (Shallow bound) (fun _ => Shallow bound) (tryEach below rs p) := by
  induction rs generalizing p with
  | nil => exact h
  | cons r rs ih =>
    rw [List.forall_mem_cons] at hbelow
    rw [tryEach_cons]
    refine (hbelow.1 p h).bind fun o p₁ h₁ => ?_
    -- after a stop nothing is tried; otherwise the row is given up and counted
    cases o with
    | stopped => exact h₁
    | exhausted =>
      exact (count_shallow Stats.backtrack_maxDepth h₁).bind fun _ _ h₂ => ih hbelow.2 h₂

/-! ## The tree -/

/-- If every row takes away at least `k` columns, the search goes no deeper than the columns
    allow. -/
theorem explore_shallow (prob : Problem α) (chosen : List α) (hk : 0 < k)
    (hin : prob.Within cols rows) (hwide : prob.Wide k rows) (hcols : cols.Nodup)
    (hdepth : k * depth + cols.length ≤ k * bound) (h : Shallow bound p) :
    Yields (Shallow bound) (fun _ => Shallow bound) (prob.explore cols rows chosen depth p) := by
  -- `k` times the depth is bounded, so the depth is
  have henter : depth ≤ bound := Nat.le_of_mul_le_mul_left (by omega) hk
  -- induction on the tree: what a choice adds to the depth it takes from the columns
  induction cols, rows using prob.tree_induction generalizing chosen depth p with
  | leaf rows =>
    rw [explore_eq]
    refine (enter_shallow henter h).bind fun _ p₁ h₁ => ?_
    rw [if_pos rfl]
    exact emit_shallow chosen h₁
  | branch cols rows c hc ih =>
    have hne : cols ≠ [] := List.ne_nil_of_mem (Selection.mem_of_choose_eq_some hc)
    rw [explore_eq]
    refine (enter_shallow henter h).bind fun _ p₁ h₁ => ?_
    rw [if_neg hne, hc]
    dsimp only
    split
    -- no row to try
    · exact h₁
    refine (count_shallow Stats.cover_maxDepth h₁).bind fun _ p₂ h₂ => ?_
    refine tryEach_shallow (fun r hr p h => ?_) h₂
    rw [exploreRow]
    refine (countCovers_shallow _ h).bind fun _ p₃ h₃ => ?_
    -- the row has used up its columns
    obtain ⟨hmem, hcr⟩ := mem_containing.mp hr
    have hlength := length_colsWithout hin hcols hmem
    have hcard := hwide r hmem ⟨c, hcr⟩
    -- the next node is one deeper and has at least `k` columns less
    have hbelow : k * (depth + 1) + (prob.colsWithout cols r).length ≤ k * bound := by
      rw [Nat.mul_succ]
      omega
    exact ih r hr (chosen ++ [r]) (hin.without r) (hwide.without r) (hcols.filter _) hbelow h₃
      (Nat.le_of_mul_le_mul_left (Nat.le_of_add_right_le hbelow) hk)

end ExactCover.AlgorithmX.Problem
