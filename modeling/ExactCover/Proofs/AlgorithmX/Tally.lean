import ExactCover.Proofs.AlgorithmX.Outcome
import ExactCover.Proofs.Stats

/-!
# What a search through a whole tree counts

A search that sees the whole tree below a node adds to its counters what the tree has to offer:
its nodes, the columns covered in it and the rows given up, its leaves and its depth. This depends
on the tree alone, not on what was counted before or how many exact covers were asked for.

## Key results

- `explore_adds`: the search through the tree below a node
- `tally_congr`, `covers_congr`: the tree does not depend on what is asked for
-/

namespace ExactCover.AlgorithmX

open Search (Outcome)

variable {α β : Type} {prob prob' : Problem α} {cols : List Nat} {rows : List α} {c depth : Nat}
  {r : α} {p p' : Progress α} {k l : Stats}

namespace Problem

/-! ## The tree -/

/-- What is counted in the tree below a node at the given depth. -/
def tally (prob : Problem α) (cols : List Nat) (rows : List α) (depth : Nat) : Stats :=
  { nodes := 1, maxDepth := depth } +
    if cols = [] then { solutions := 1 }
    else
      match _hc : prob.branch cols rows with
      | none => 0
      | some c =>
        if prob.containing rows c = [] then 0
        else
          { covers := 1 } + ((prob.containing rows c).attach.map fun ⟨r, _hr⟩ =>
            { covers := (prob.columns r).card - 1 } +
              tally prob (prob.colsWithout cols r) (prob.rowsWithout rows r) (depth + 1) +
              { backtracks := 1 }).sum
termination_by cols.length
decreasing_by exact length_colsWithout_lt _hc _hr

/-- What is counted below a choice until it is given up. -/
def tallyBelow (prob : Problem α) (cols : List Nat) (rows : List α) (depth : Nat) (r : α) :
    Stats :=
  { covers := (prob.columns r).card - 1 } +
    prob.tally (prob.colsWithout cols r) (prob.rowsWithout rows r) (depth + 1) +
    { backtracks := 1 }

/-- At a leaf a node and a solution are counted. -/
private theorem tally_nil (prob : Problem α) (rows : List α) (depth : Nat) :
    prob.tally [] rows depth = { nodes := 1, maxDepth := depth } + { solutions := 1 } := by
  rw [tally, if_pos rfl]

/-- At an inner node the column and all that lies below its rows are counted. -/
private theorem tally_of_branch (hc : prob.branch cols rows = some c) :
    prob.tally cols rows depth = { nodes := 1, maxDepth := depth } +
      if prob.containing rows c = [] then 0
      else { covers := 1 } +
        ((prob.containing rows c).map (prob.tallyBelow cols rows depth)).sum := by
  have hne : cols ≠ [] := List.ne_nil_of_mem (Selection.mem_of_choose_eq_some hc)
  rw [tally, if_neg hne]
  -- the match on the column chosen, which is `c`
  split
  next h => exact nomatch h.symm.trans hc
  next c' h =>
    obtain rfl : c' = c := Option.some.inj (h.symm.trans hc)
    rw [List.map_subtype (g := prob.tallyBelow cols rows depth) fun _ _ => rfl,
      List.unattach_attach]

/-- The leaves depend on the rows and the rule alone. -/
theorem covers_congr (prob prob' : Problem α) (hcolumns : prob.columns = prob'.columns)
    (hselection : prob.selection = prob'.selection) (cols : List Nat) (rows : List α) :
    prob.covers cols rows = prob'.covers cols rows := by
  obtain ⟨columns, selection, maxNodes, wanted⟩ := prob
  obtain ⟨columns', selection', maxNodes', wanted'⟩ := prob'
  obtain rfl : columns = columns' := hcolumns
  obtain rfl : selection = selection' := hselection
  -- induction on the tree; both searches branch on the same column, as the limit has no say in it
  induction cols, rows using tree_induction ⟨columns, selection, maxNodes, wanted⟩ with
  | leaf rows => rw [covers_nil, covers_nil]
  | branch cols rows c hc ih =>
    have hc' : branch ⟨columns, selection, maxNodes', wanted'⟩ cols rows = some c := hc
    rw [covers_of_branch hc, covers_of_branch hc']
    refine List.flatMap_congr fun r hr => ?_
    exact congrArg (List.map (r :: ·)) (ih r hr)

/-- What is counted in a tree depends on the rows and the rule alone. -/
theorem tally_congr (prob prob' : Problem α) (hcolumns : prob.columns = prob'.columns)
    (hselection : prob.selection = prob'.selection) (cols : List Nat) (rows : List α)
    (depth : Nat) : prob.tally cols rows depth = prob'.tally cols rows depth := by
  obtain ⟨columns, selection, maxNodes, wanted⟩ := prob
  obtain ⟨columns', selection', maxNodes', wanted'⟩ := prob'
  obtain rfl : columns = columns' := hcolumns
  obtain rfl : selection = selection' := hselection
  induction cols, rows using tree_induction ⟨columns, selection, maxNodes, wanted⟩
    generalizing depth with
  | leaf rows => rw [tally_nil, tally_nil]
  | branch cols rows c hc ih =>
    have hc' : branch ⟨columns, selection, maxNodes', wanted'⟩ cols rows = some c := hc
    rw [tally_of_branch hc, tally_of_branch hc']
    -- below each row the same is counted
    have hbelow : (containing ⟨columns, selection, maxNodes, wanted⟩ rows c).map
          (tallyBelow ⟨columns, selection, maxNodes, wanted⟩ cols rows depth) =
        (containing ⟨columns, selection, maxNodes', wanted'⟩ rows c).map
          (tallyBelow ⟨columns, selection, maxNodes', wanted'⟩ cols rows depth) := by
      refine List.map_congr_left fun r hr => ?_
      rw [tallyBelow, ih r hr]
      rfl
    rw [hbelow]
    rfl

/-! ## The search -/

/-- If the search has seen the whole tree, it has counted `k` more than before. -/
def Adds (p : Progress α) (k : Stats) : EStateM.Result Halt (Progress α) Outcome → Prop
  | .ok .exhausted p' => p'.stats = p.stats + k
  | _ => True

theorem Adds.trans (hp : p'.stats = p.stats + k) {x : EStateM.Result Halt (Progress α) Outcome}
    (h : Adds p' l x) : Adds p (k + l) x := by
  match x, h with
  | .ok .exhausted p'', h =>
    calc p''.stats = p.stats + k + l := by rw [← hp]; exact h
      _ = p.stats + (k + l) := add_assoc ..
  | .ok .stopped _, _ => trivial
  | .error _ _, _ => trivial

theorem Adds.count_bind {f : Stats → Except Fault Stats} (hf : ∀ s s', f s = .ok s' → s' = s + k)
    {g : Unit → Trial α Outcome} (h : ∀ p', Adds p' l (g () p')) :
    Adds p (k + l) ((count f >>= g) p) := by
  cases hst : f p.stats with
  | ok stats =>
    rw [bind_of_ok (count_of_ok hst)]
    exact (h _).trans (hf _ _ hst)
  | error cause =>
    rw [bind_of_error (count_of_error hst)]
    trivial

theorem Adds.countCovers_bind {n : Nat} {g : Unit → Trial α Outcome}
    (h : ∀ p', Adds p' l (g () p')) : Adds p ({ covers := n } + l) ((countCovers n >>= g) p) := by
  induction n generalizing p with
  | zero => exact (h p).trans (add_zero _).symm
  | succ n ih =>
    rw [countCovers_succ, bind_assoc, Nat.add_comm n, ← Stats.covers_add, add_assoc]
    exact .count_bind (fun _ _ => Stats.cover_eq_add) fun p' => ih

theorem Adds.enter_bind {g : Unit → Trial α Outcome} (h : ∀ p', Adds p' l (g () p')) :
    Adds p ({ nodes := 1, maxDepth := depth } + l) ((prob.enter depth >>= g) p) := by
  rw [enter_eq, bind_assoc]
  refine .count_bind (fun _ _ => Stats.enter_eq_add) fun p' => ?_
  rw [bind_assoc, bind_of_ok (x := get) rfl]
  cases p'.stats.exceeds prob.maxNodes with
  | none => exact h p'
  | some limit => trivial

theorem Adds.emit (chosen : List α) : Adds p { solutions := 1 } (prob.emit chosen p) := by
  let p₁ : Progress α := { p with found := p.found ++ [chosen] }
  have hpush : (modify fun p => { p with found := p.found ++ [chosen] } : Trial α Unit) p =
    .ok () p₁ := rfl
  have hsame : p₁.stats = p.stats + 0 := (add_zero _).symm
  rw [Problem.emit_eq, bind_of_ok hpush, ← add_zero ({ solutions := 1 } : Stats),
    ← zero_add (({ solutions := 1 } : Stats) + 0)]
  refine .trans hsame ?_
  refine .count_bind (fun _ _ => Stats.solve_eq_add) fun p₂ => ?_
  rw [bind_of_ok (x := get) rfl]
  split
  · trivial
  · exact (add_zero _).symm

/-- Rows are tried in turn. -/
theorem Adds.tryEach {below : β → Trial α Outcome} {counts : β → Stats} {rs : List β}
    (hbelow : ∀ r ∈ rs, ∀ p, Adds p (counts r) (below r p)) :
    Adds p (rs.map fun r => counts r + { backtracks := 1 }).sum (tryEach below rs p) := by
  induction rs generalizing p with
  | nil => exact (add_zero _).symm
  | cons r rs ih =>
    have hr := hbelow r (List.mem_cons_self ..) p
    rw [AlgorithmX.tryEach_cons, List.map_cons, List.sum_cons]
    cases hx : below r p with
    | error e p₁ =>
      rw [bind_of_error hx]
      trivial
    | ok o p₁ =>
      rw [hx] at hr
      rw [bind_of_ok hx]
      cases o with
      | stopped => trivial
      | exhausted =>
        -- the row is given up, which is counted as well
        rw [add_assoc]
        refine .trans hr ?_
        show Adds p₁ _ ((count (·.backtrack) >>= fun _ => AlgorithmX.tryEach below rs) p₁)
        refine .count_bind (fun _ _ => Stats.backtrack_eq_add) fun p₂ => ih fun r' hr' => ?_
        exact hbelow r' (List.mem_cons_of_mem r hr')

/-- A search through the whole tree below a node adds what there is to be counted. -/
theorem explore_adds (prob : Problem α) (cols : List Nat) (rows chosen : List α) (depth : Nat)
    (p : Progress α) : Adds p (prob.tally cols rows depth) (prob.explore cols rows chosen depth p) := by
  induction cols, rows using prob.tree_induction generalizing chosen depth p with
  | leaf rows =>
    rw [explore_eq, tally_nil]
    refine .enter_bind fun p₁ => ?_
    rw [if_pos rfl]
    exact .emit chosen
  | branch cols rows c hc ih =>
    have hne : cols ≠ [] := List.ne_nil_of_mem (Selection.mem_of_choose_eq_some hc)
    rw [explore_eq, tally_of_branch hc]
    refine .enter_bind fun p₁ => ?_
    rw [if_neg hne, hc]
    dsimp only
    by_cases hempty : prob.containing rows c = []
    · -- no row contains the column, so nothing more is counted
      rw [if_pos hempty, if_pos hempty]
      exact (add_zero _).symm
    · rw [if_neg hempty, if_neg hempty]
      refine .count_bind (fun _ _ => Stats.cover_eq_add) fun p₂ => .tryEach fun r hr p₃ => ?_
      exact .countCovers_bind fun p₄ => ih r hr (chosen ++ [r]) (depth + 1) p₄

end Problem
end ExactCover.AlgorithmX
