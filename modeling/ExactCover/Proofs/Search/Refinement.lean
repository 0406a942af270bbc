import ExactCover.Proofs.Matrix.AddRow
import ExactCover.Proofs.Search.Agreement

/-!
# The search over links is Algorithm X

Where the columns `cs` have been covered, the active columns and the rows that meet none of `cs`
are what remains for Algorithm X, in the same order. So the two searches branch on the same
column, try the same rows and count the same, and what the search has covered at a node it has
uncovered when it leaves the node.

## Key results

- `visit_agree`: the search of the tree below a node
- `solveUpTo_agree`: a run of a search
- `solveUpTo_eq_solve`: a new search over a matrix built by adding rows
-/

namespace ExactCover

open AlgorithmX (Problem Progress)

/-- The problem that a table poses to Algorithm X: `row` names the row at a position, and `label`
    is its identifier. -/
structure Table.Poses {ρ : Type} (t : Table) (row : Nat → ρ) (label : ρ → Nat)
    (prob : Problem ρ) : Prop where
  columns : ∀ i, prob.columns (row i) = (t.columns i).toFinset
  label : ∀ i, label (row i) = t.id i

namespace Table

variable {ρ : Type} {t : Table} {row : Nat → ρ} {label : ρ → Nat} {prob : Problem ρ}
  {cs : List Nat} {c i : Nat}

/-- The rows of an active column are those that are linked into it. -/
private theorem Poses.containing_free (h : t.Poses row label prob) (hc : c ∉ cs) :
    prob.containing ((t.free cs).map row) c = (t.linked cs c).map row := by
  rw [Problem.containing, linked, before_of_not_mem hc, List.filter_map]
  simp only [Function.comp_def, h.columns, List.mem_toFinset]

/-- The columns that remain when a row of column `c` is chosen. -/
private theorem Poses.active_others (h : t.Poses row label prob) (hi : c ∈ t.columns i) :
    t.active (cs ++ c :: t.others i c) = prob.colsWithout (t.active cs) (row i) := by
  -- the column branched on and the others of the row are the columns of the row
  rw [Problem.colsWithout, active, active, List.filter_filter]
  refine List.filter_congr fun d _ => ?_
  have hd := (others_perm hi).mem_iff (a := d)
  rw [Bool.eq_iff_iff]
  simp only [h.columns, List.mem_toFinset, ← hd, List.mem_append, decide_eq_true_eq,
    Bool.and_eq_true]
  tauto

/-- The rows that remain when a row of column `c` is chosen. -/
private theorem Poses.free_others (h : t.Poses row label prob) (hi : c ∈ t.columns i) :
    (t.free (cs ++ c :: t.others i c)).map row =
      prob.rowsWithout ((t.free cs).map row) (row i) := by
  rw [Problem.rowsWithout, List.filter_map, free, free, List.filter_filter]
  congr 1
  -- a row stays if it meets no column covered before and none of the row
  refine List.filter_congr fun j _ => ?_
  rw [Bool.eq_iff_iff]
  simp only [Function.comp_def, h.columns, List.disjoint_toFinset_iff_disjoint, List.disjoint_left,
    List.mem_append, ← (others_perm hi).mem_iff, decide_eq_true_eq, Bool.and_eq_true]
  constructor
  · intro h
    exact ⟨fun d hd hdj => h d hdj (.inr hd), fun d hd hmem => h d hd (.inl hmem)⟩
  · rintro ⟨hdisj, hfree⟩ d hd (hmem | hmem)
    · exact hfree d hd hmem
    · exact hdisj hmem hd

/-- Words can number the columns. -/
theorem length_active_lt_wordBound (t : Table) (cs : List Nat) :
    (t.active cs).length < wordBound := by
  -- they are no more than there are headers
  have hle := List.length_filter_le (· ∉ cs) (List.range t.columnCount)
  rw [List.length_range] at hle
  have hfits := t.fits
  have hactive : (t.active cs).length ≤ t.columnCount := hle
  omega

/-- A row that is linked into column `c` meets no column covered before. -/
theorem append_others_nodup (hnodup : (cs ++ [c]).Nodup) (hc : c ∉ cs) (hi : i ∈ t.linked cs c) :
    (cs ++ c :: t.others i c).Nodup := by
  obtain ⟨hic, hfree⟩ := mem_linked.mp hi
  rw [before_of_not_mem hc] at hfree
  rw [List.nodup_append] at hnodup ⊢
  refine ⟨hnodup.1, (others_perm hic).nodup_iff.mpr (t.columns_nodup i), fun d hd e he heq => ?_⟩
  rw [(others_perm hic).mem_iff, ← heq] at he
  exact hfree d he hd

end Table

namespace Matrix.Covered

variable {m : Matrix} {t : Table} {cs done rest : List Nat} {c i : Nat}

/-- Where the column `c` has been covered to branch on it, a row of it is chosen by covering its
    other columns, and uncovering them in the opposite order takes the choice back. -/
theorem choose (h : m.Covered t (cs ++ [c])) (hc : c ∉ cs) (hi : i ∈ t.linked cs c) :
    ∃ m', (t.others i c).foldlM Matrix.cover m = .ok m' ∧
      m'.Covered t (cs ++ c :: t.others i c) ∧
      (t.others i c).reverse.foldlM Matrix.uncover m' = .ok m := by
  have hassoc : (cs ++ [c]) ++ t.others i c = cs ++ c :: t.others i c := by
    rw [List.append_assoc, List.singleton_append]
  have hall := h.coverAll (t.others i c)
    (fun d hd => Table.column_lt ((Table.mem_others (Table.mem_linked.mp hi).1).mp hd).1)
    (hassoc ▸ Table.append_others_nodup h.nodup hc hi)
  rwa [hassoc] at hall

/-- The ring of a covered column stays, so its header leads down to its first row. -/
theorem header_down (h : m.Covered t (cs ++ [c])) (hc : c ∉ cs) :
    ∃ n, m.node (header c) = .ok n ∧ (t.linked cs c).length < m.nodes.size ∧
      -- no column covered later has taken anything from its ring
      ((t.linked cs c).map (t.entry · c) ++ [header c]).head? = some n.down := by
  have hlt : c < t.columnCount := h.lt c (by simp)
  have hlinked := Table.linked_append_self (t := t) hc
  obtain ⟨y, hy⟩ := exists_head?_concat ((t.linked cs c).map (t.entry · c)) (header c)
  obtain ⟨n, hn, rfl⟩ := h.shows.header_down hlt (hlinked ▸ hy)
  have hlength := (h.shows.column c hlt).length_lt
  rw [List.length_map, hlinked] at hlength
  exact ⟨n, hn, hlength, hy⟩

/-- A row of a covered column leads down to the next. -/
theorem entry_down (h : m.Covered t (cs ++ [c])) (hc : c ∉ cs)
    (hl : t.linked cs c = done ++ i :: rest) :
    ∃ n, m.node (t.entry i c) = .ok n ∧
      (rest.map (t.entry · c) ++ [header c]).head? = some n.down := by
  obtain ⟨y, hy⟩ := exists_head?_concat (rest.map (t.entry · c)) (header c)
  obtain ⟨n, hn, rfl⟩ := h.shows.entry_down (h.lt c (by simp))
    ((Table.linked_append_self hc).trans hl) hy
  exact ⟨n, hn, hy⟩

end Matrix.Covered

namespace Search

/-- The search has come to a node where the columns `cs` are covered and the rows `chosen` have
    been chosen, and Algorithm X has come there too. -/
structure Reached {ρ : Type} (t : Table) (row : Nat → ρ) (label : ρ → Nat) (prob : Problem ρ)
    (s : Search) (p : Progress ρ) (cs : List Nat) (chosen : List ρ) : Prop where
  poses : t.Poses row label prob
  same : Matches label s p
  covered : s.matrix.Covered t cs
  chosen : List.Forall₂ (fun id r => ∃ i, ∃ c ∈ t.columns i, id = t.entry i c ∧ r = row i)
    s.chosen.reverse chosen
  selection : s.selection = prob.selection
  maxNodes : s.maxNodes = prob.maxNodes
  wanted : s.wanted = prob.wanted

/-- Both searches have left a node in the same way. If the whole tree was seen, then the matrix
    and the choices are those of `s` again. -/
def Left {ρ : Type} (label : ρ → Nat) (s : Search) (o : Outcome) (s' : Search) (o' : Outcome)
    (p' : Progress ρ) : Prop :=
  o = o' ∧ Matches label s' p' ∧ (o = .exhausted → Restored s s')

variable {ρ : Type} {t : Table} {row : Nat → ρ} {label : ρ → Nat} {prob : Problem ρ}
  {s s' : Search} {p p' : Progress ρ} {chosen : List ρ} {cs done rest : List Nat}
  {c steps id depth fuel : Nat}

/-- Both are at the same node whatever they have counted and found. -/
theorem Reached.restored (h : Reached t row label prob s p cs chosen) (hs : Restored s s')
    (hp : Matches label s' p') : Reached t row label prob s' p' cs chosen where
  poses := h.poses
  same := hp
  covered := hs.matrix ▸ h.covered
  chosen := hs.chosen ▸ h.chosen
  selection := hs.selection.trans h.selection
  maxNodes := hs.maxNodes.trans h.maxNodes
  wanted := hs.wanted.trans h.wanted

/-- The rows chosen can be read from their entries. -/
theorem Reached.mapM_rowOf (h : Reached t row label prob s p cs chosen) :
    s.chosen.reverse.mapM s.matrix.rowOf = .ok (chosen.map label) := by
  -- induction on the entries chosen, for which the matrix must not vary
  have hrows := h.chosen
  have hshows := h.covered.shows
  have hposes := h.poses
  clear h
  generalize s.chosen.reverse = ids at hrows
  induction hrows with
  | nil => rfl
  | cons hid _ ih =>
    obtain ⟨i, c, hc, rfl, rfl⟩ := hid
    rw [List.mapM_cons, hshows.rowOf_eq hc, ok_bind, ih, ok_bind, List.map_cons, hposes.label]
    rfl

/-- Both searches branch on the same column. -/
theorem Reached.select_eq (h : Reached t row label prob s p cs chosen) :
    s.selection.select s.matrix = .ok (prob.branch (t.active cs) ((t.free cs).map row)) := by
  -- the rule sees the same active columns, and the same number of rows in each
  have hshows := h.covered.shows
  rw [Problem.branch, h.selection]
  refine Selection.select_eq _ hshows.activeColumns_eq fun c hc => ?_
  obtain ⟨hlt, hnot⟩ := Table.mem_active.mp hc
  rw [h.poses.containing_free hnot, List.length_map]
  exact hshows.columnSize_eq hlt

/-- The search `below` goes below each row of column `c` as Algorithm X does. -/
def BelowAgrees {ρ : Type} (t : Table) (row : Nat → ρ) (label : ρ → Nat) (prob : Problem ρ)
    (below : Run Outcome) (cs : List Nat) (c : Nat) (chosen : List ρ) (depth : Nat) : Prop :=
  ∀ i ∈ t.linked cs c, ∀ s p,
    Reached t row label prob s p (cs ++ c :: t.others i c) (chosen ++ [row i]) →
    Agree label (Left label s) (below s)
      (prob.explore (prob.colsWithout (t.active cs) (row i))
        (prob.rowsWithout ((t.free cs).map row) (row i)) (chosen ++ [row i]) (depth + 1) p)

/-- The rows of a covered column are tried as Algorithm X tries them. -/
private theorem tryRows_agree {below : Run Outcome}
    (h : Reached t row label prob s p (cs ++ [c]) chosen) (hc : c ∉ cs) (hlt : c < t.columnCount)
    (done : List Nat) (hl : t.linked cs c = done ++ rest) (hsteps : rest.length < steps)
    (hid : (rest.map (t.entry · c) ++ [Matrix.header c]).head? = some id)
    (hbelow : BelowAgrees t row label prob below cs c chosen depth) :
    Agree label (Left label s) (tryRows below (Matrix.header c) steps id s)
      (AlgorithmX.tryEach (prob.exploreRow (t.active cs) ((t.free cs).map row) chosen depth)
        (rest.map row) p) := by
  -- induction on the rows not tried yet; `id` is the entry of the first of them or the header
  induction rest generalizing done s p steps id with
  | nil =>
    obtain ⟨k, rfl⟩ := Nat.exists_eq_add_one_of_ne_zero (Nat.ne_zero_of_lt hsteps)
    rw [List.map_nil, List.nil_append, List.head?_cons, Option.some.injEq] at hid
    rw [tryRows, if_pos hid.symm]
    exact ⟨rfl, h.same, fun _ => .refl s⟩
  | cons i rest ih =>
    obtain ⟨k, rfl⟩ := Nat.exists_eq_add_one_of_ne_zero (Nat.ne_zero_of_lt hsteps)
    rw [List.map_cons, List.cons_append, List.head?_cons, Option.some.injEq] at hid
    subst hid
    have hi : i ∈ t.linked cs c := by rw [hl]; simp
    have hic : c ∈ t.columns i := (Table.mem_linked.mp hi).1
    obtain ⟨m', hall, hcovered, hback⟩ := h.covered.choose hc hi
    have hcard : (prob.columns (row i)).card - 1 = (t.others i c).length := by
      rw [h.poses.columns, List.toFinset_card_of_nodup (t.columns_nodup i),
        ← Table.others_length hic, Nat.add_sub_cancel]
    rw [tryRows, if_neg (t.entry_ne_header i hlt), List.map_cons, AlgorithmX.tryEach_cons,
      Problem.exploreRow, bind_assoc, hcard]
    -- the row is chosen and its other columns are covered
    let s₁ : Search := { s with chosen := t.entry i c :: s.chosen }
    have hsame : Matches label s₁ p := ⟨h.same.stats, h.same.found⟩
    have hpush : (modify fun s => { s with chosen := t.entry i c :: s.chosen } : Run Unit) s =
      .ok () s₁ := rfl
    apply Agree.step hpush
    apply Agree.step (ask_eq (h.covered.shows.otherColumns_eq hic))
    apply (coverColumns_agree hsame hall).bind
    intro _ s₂ _ p₂ hq
    obtain ⟨hp₂, hs₂⟩ := hq
    have h₂ : Reached t row label prob s₂ p₂ (cs ++ c :: t.others i c) (chosen ++ [row i]) := by
      refine Reached.restored (s := { s₁ with matrix := m' }) ⟨h.poses,
        ⟨hsame.stats, hsame.found⟩, hcovered, ?_, h.selection, h.maxNodes, h.wanted⟩ hs₂ hp₂
      simp only [s₁, List.reverse_cons]
      exact List.rel_append h.chosen (.cons ⟨i, c, hic, rfl, rfl⟩ .nil)
    -- the search goes on below
    apply (hbelow i hi s₂ p₂ h₂).bind
    intro o s₃ _ p₃ hq
    obtain ⟨rfl, hp₃, hs₃⟩ := hq
    cases o with
    | stopped => exact ⟨rfl, hp₃, fun h => by cases h⟩
    | exhausted =>
      -- the row is given up and its other columns are uncovered
      have hs₃ := hs₂.trans (hs₃ rfl)
      have hmatrix : s₃.matrix = m' := hs₃.matrix
      rw [← hmatrix] at hback
      apply Agree.step (uncoverColumns_eq hback)
      let s₃' : Search := { s₃ with matrix := s.matrix, chosen := s₃.chosen.tail }
      have hsame₃ : Matches label s₃' p₃ := ⟨hp₃.stats, hp₃.found⟩
      have hpop : (modify fun s => { s with chosen := s.chosen.tail } : Run Unit)
          { s₃ with matrix := s.matrix } = .ok () s₃' := rfl
      apply Agree.step hpop
      apply (count_agree hsame₃ _).bind
      intro _ s₄ _ p₄ hq
      obtain ⟨hp₄, hs₄⟩ := hq
      have hback : Restored s s₄ := hs₃.takeBack hs₄
      -- all is as it was before the row, so its link down leads to the next row
      have h₄ := h.restored hback hp₄
      obtain ⟨n, hn, hy⟩ := h₄.covered.entry_down hc hl
      apply Agree.step (ask_eq hn)
      refine (ih h₄ (done ++ [i]) ?_ (by simpa using hsteps) hy).imp ?_
      · rw [hl, List.append_assoc]
        rfl
      · intro o s₅ o' p₅ hq
        obtain ⟨ho, hp₅, hs₅⟩ := hq
        exact ⟨ho, hp₅, fun he => hback.trans (hs₅ he)⟩

/-- The column to branch on is covered, its rows are tried, and it is uncovered. -/
private theorem branch_agree {below : Run Outcome} (h : Reached t row label prob s p cs chosen)
    (hc : c ∉ cs) (hlt : c < t.columnCount)
    (hbelow : BelowAgrees t row label prob below cs c chosen depth) :
    Agree label (Left label s)
      ((do
        coverColumn c
        let head ← lift (Matrix.headerOf c)
        let first := (← ask (·.node head)).down
        match ← tryRows below head (← get).matrix.nodes.size first with
        | .stopped => return .stopped
        | .exhausted =>
          uncoverColumn c
          return .exhausted : Run Outcome) s)
      ((do
        AlgorithmX.count (·.cover)
        AlgorithmX.tryEach (prob.exploreRow (t.active cs) ((t.free cs).map row) chosen depth)
          ((t.linked cs c).map row)) p) := by
  -- the column is covered by the search and counted by both
  obtain ⟨m', hcover, hcovered, huncover⟩ := h.covered.cover hlt hc
  apply (coverColumn_agree h.same hcover).bind
  intro _ s₁ _ p₁ hq
  obtain ⟨hp₁, hs₁⟩ := hq
  have h₁ : Reached t row label prob s₁ p₁ (cs ++ [c]) chosen :=
    Reached.restored (s := { s with matrix := m' }) ⟨h.poses, ⟨h.same.stats, h.same.found⟩,
      hcovered, h.chosen, h.selection, h.maxNodes, h.wanted⟩ hs₁ hp₁
  -- its rows are tried from the first on
  obtain ⟨n, hn, hlength, hy⟩ := h₁.covered.header_down hc
  refine Agree.step (x := lift _) (a := Matrix.header c)
    (by rw [Table.headerOf_eq hlt]; rfl) ?_
  refine Agree.step (ask_eq hn) (Agree.step (x := get) rfl ?_)
  rw [← bind_pure (AlgorithmX.tryEach _ _)]
  apply (tryRows_agree h₁ hc hlt [] rfl hlength hy hbelow).bind
  intro o s₂ _ p₂ hq
  obtain ⟨rfl, hp₂, hs₂⟩ := hq
  cases o with
  | stopped => exact ⟨rfl, hp₂, fun h => by cases h⟩
  | exhausted =>
    -- the matrix below the column is the covered one again, so it can be uncovered
    have hs₂ := hs₁.trans (hs₂ rfl)
    have hmatrix : s₂.matrix = m' := hs₂.matrix
    rw [← hmatrix] at huncover
    apply Agree.step (onMatrix_eq huncover)
    refine ⟨rfl, ⟨hp₂.stats, hp₂.found⟩, fun _ => ?_⟩
    exact ⟨rfl, hs₂.selection, hs₂.maxNodes, hs₂.chosen, hs₂.wanted, hs₂.spent⟩

/-- The search of the tree below a node agrees with Algorithm X, and leaves the matrix and the
    choices as they were unless it stops. -/
theorem visit_agree (depth : Nat) (h : Reached t row label prob s p cs chosen)
    (hfuel : (t.active cs).length < fuel) :
    Agree label (Left label s) (visit fuel depth s)
      (prob.explore (t.active cs) ((t.free cs).map row) chosen depth p) := by
  -- induction on the fuel, of which there is more than there are active columns
  induction fuel generalizing depth cs chosen s p with
  | zero => exact absurd hfuel (Nat.not_lt_zero _)
  | succ fuel ih =>
    rw [visit, Problem.explore_eq]
    apply (enter_agree h.same h.maxNodes h.covered.shows.check_eq depth).bind
    intro _ s₁ _ p₁ hq
    obtain ⟨hp₁, hs₁⟩ := hq
    have h₁ := h.restored hs₁ hp₁
    have hshows := h₁.covered.shows
    -- no column is left: the rows chosen are kept by both
    apply Agree.step (x := get) rfl
    by_cases hsolved : t.active cs = []
    · rw [if_pos (by rw [hshows.isSolved_eq, hsolved]; rfl), if_pos hsolved]
      apply (record_agree hp₁ h₁.wanted h₁.mapM_rowOf).imp
      intro o s₂ o' p₂ hq
      obtain ⟨ho, hp₂, hs₂⟩ := hq
      exact ⟨ho, hp₂, fun _ => hs₁.trans hs₂⟩
    · rw [if_neg (by rwa [hshows.isSolved_eq, List.isEmpty_iff]), if_neg hsolved]
      -- both branch on the same column, and go back if it has no rows
      refine Agree.step (x := get) rfl (Agree.step (ask_eq h₁.select_eq) ?_)
      cases hbranch : prob.branch (t.active cs) ((t.free cs).map row) with
      | none => exact ⟨rfl, hp₁, fun _ => hs₁⟩
      | some c =>
        obtain ⟨hlt, hc⟩ := Table.mem_active.mp (Selection.mem_of_choose_eq_some hbranch)
        have hcont := h.poses.containing_free hc
        apply Agree.step (ask_eq (hshows.columnSize_eq hlt))
        dsimp only
        rw [hcont]
        by_cases hempty : t.linked cs c = []
        · rw [if_pos (List.length_eq_zero_iff.mpr hempty), if_pos (by rw [hempty]; rfl)]
          exact ⟨rfl, hp₁, fun _ => hs₁⟩
        · rw [if_neg (by rwa [List.length_eq_zero_iff]), if_neg (by rwa [List.map_eq_nil_iff])]
          -- the column is covered and its rows are tried, each as Algorithm X does
          refine (branch_agree h₁ hc hlt fun i hi s p hreached => ?_).imp ?_
          · -- every column of the row is covered below, so less fuel is needed there
            have hic := (Table.mem_linked.mp hi).1
            have hless := Problem.length_colsWithout_lt hbranch
              (hcont ▸ List.mem_map_of_mem hi : row i ∈ _)
            rw [← h.poses.active_others hic] at hless ⊢
            rw [← h.poses.free_others hic]
            exact ih (depth + 1) hreached (by omega)
          · intro o s₂ o' p₂ hq
            obtain ⟨ho, hp₂, hs₂⟩ := hq
            exact ⟨ho, hp₂, fun he => hs₁.trans (hs₂ he)⟩

/-! ## Runs -/

/-- A search that fails is spent, and fails for the same reason. -/
private theorem tryCatch_agree {α β : Type} {Q : α → Search → β → Progress ρ → Prop} {x : Run α}
    {y : EStateM.Result Halt (Progress ρ) β} (h : Agree label Q (x s) y) :
    Agree label Q ((tryCatch x fun halt => do spend; throw halt) s) y := by
  show Agree label Q (EStateM.tryCatch x _ s) y
  unfold EStateM.tryCatch
  revert h
  cases x s <;> cases y <;> intro h
  · exact h
  · exact h
  · exact h
  · exact ⟨h.1, h.2.stats, h.2.found⟩

/-- A run of a search that has not ended before agrees with Algorithm X. After a run through the
    whole tree the matrix and the choices are as before. -/
theorem solveUpTo_agree {max : Nat} (h : Reached t row label prob { s with wanted := max } p cs [])
    (hspent : s.spent = false) (hmax : 1 ≤ max) :
    Agree label
      (fun found s' o p' => found = p'.found.map (·.map label) ∧ s'.stats = p'.stats ∧
        (o = .exhausted → Restored { s with wanted := max } s') ∧
        (o = .stopped → s'.spent = true))
      (solveUpTo max s) (prob.explore (t.active cs) ((t.free cs).map row) [] 0 p) := by
  -- every level takes a column
  have hvisit := visit_agree 0 h (t.length_active_lt_wordBound cs)
  rw [solveUpTo, ← bind_pure (prob.explore _ _ _ _)]
  apply Agree.step (x := get) rfl
  rw [if_neg (by rw [hspent]; decide), if_neg (by omega)]
  -- if the whole tree has been seen the choices are as before, and otherwise the search is spent
  refine Agree.step (x := modify _) rfl ((tryCatch_agree hvisit).bind ?_)
  intro o s₁ _ p₁ hq
  obtain ⟨rfl, hp₁, hs₁⟩ := hq
  cases o with
  | exhausted =>
    have hs₁ := hs₁ rfl
    exact ⟨hp₁.found, hp₁.stats, fun _ => ⟨hs₁.matrix, hs₁.selection, hs₁.maxNodes, hs₁.chosen,
      hs₁.wanted, hs₁.spent⟩, fun h => by cases h⟩
  | stopped => exact ⟨hp₁.found, hp₁.stats, fun h => (by cases h), fun _ => rfl⟩

/-- A new search over a matrix to which rows have been added does what Algorithm X does with the
    list of these rows: it finds the same exact covers in the same order or fails for the same
    reason, and its counters are the same in the end. -/
theorem solveUpTo_eq_solve {n max : Nat} {rows : List (Nat × List Nat)} {m₀ m : Matrix}
    {selection : Selection} {maxNodes : Option Nat} (hcreate : Matrix.create n = .ok m₀)
    (hadd : rows.foldlM (fun m r => m.addRow r.1 r.2) m₀ = .ok m) (hmax : 1 ≤ max) :
    let (result, s) := run { matrix := m, selection, maxNodes } (solveUpTo max)
    let (covers, stats) := Problem.solve
      { columns := fun r : Nat × List Nat => r.2.toFinset, selection, maxNodes, wanted := max }
      (List.range n) rows
    result = covers.map (·.map (·.map Prod.fst)) ∧ s.stats = stats := by
  obtain ⟨t, rfl, rfl, hcovered⟩ := Matrix.covered_of_create hcreate hadd
  -- Algorithm X sees the rows themselves, while the table knows them by their positions
  let row (i : Nat) : Nat × List Nat := t.rows[i]?.getD (0, [])
  have hrows : (t.free []).map row = t.rows := by
    rw [Table.free_nil]
    refine List.ext_getElem (by simp) fun i hi hi' => ?_
    rw [List.getElem_map, List.getElem_range]
    show t.rows[i]?.getD (0, []) = _
    rw [List.getElem?_eq_getElem hi', Option.getD_some]
  have hposes : t.Poses row Prod.fst
      { columns := fun r : Nat × List Nat => r.2.toFinset, selection, maxNodes, wanted := max } :=
    ⟨fun _ => rfl, fun _ => rfl⟩
  -- the run and Algorithm X begin at the same root
  have hagree := solveUpTo_agree (s := { matrix := m, selection, maxNodes }) (p := {})
    ⟨hposes, ⟨rfl, rfl⟩, hcovered, .nil, rfl, rfl, rfl⟩ rfl hmax
  rw [hrows, Table.active_nil] at hagree
  simp only [run, Problem.solve, EStateM.run]
  revert hagree
  cases solveUpTo max _ <;> cases Problem.explore _ _ _ _ _ _ <;> intro hagree
  · exact ⟨congrArg Except.ok hagree.1, hagree.2.1⟩
  · exact False.elim hagree
  · exact False.elim hagree
  · exact ⟨congrArg Except.error hagree.1, hagree.2.stats⟩

/-- Two of five rows bear the same identifier and one is empty. -/
theorem solveUpTo_eq_solve_shared_id :
    ∃ m₀ m : Matrix, Matrix.create 3 = .ok m₀ ∧
      [(7, [0, 1]), (8, [2]), (7, [1, 2]), (9, [0]), (5, [])].foldlM
        (fun (m : Matrix) r => m.addRow r.1 r.2) m₀ = .ok m ∧
      1 ≤ 5 ∧
      let (result, s) := run { matrix := m, selection := .minimumSize, maxNodes := some 9 }
        (solveUpTo 5)
      let (covers, stats) := Problem.solve
        { columns := fun r : Nat × List Nat => r.2.toFinset, selection := .minimumSize,
          maxNodes := some 9, wanted := 5 }
        (List.range 3) [(7, [0, 1]), (8, [2]), (7, [1, 2]), (9, [0]), (5, [])]
      result = covers.map (·.map (·.map Prod.fst)) ∧ s.stats = stats := by
  obtain ⟨m, hadd⟩ := exists_of_isOk (x := [(7, [0, 1]), (8, [2]), (7, [1, 2]), (9, [0]),
    (5, [])].foldlM (fun (m : Matrix) r => m.addRow r.1 r.2) (Matrix.empty 3)) (by decide +kernel)
  exact ⟨_, m, rfl, hadd, by decide, solveUpTo_eq_solve rfl hadd (by decide)⟩

end Search
end ExactCover
