import ExactCover.Proofs.Search.Requests

/-!
# Where a search stops

A search stops at once when it has found as many exact covers as it was asked for, and when it
meets its limit of nodes. Either way it has come down its tree to some node and leaves the matrix
covered as it is there: for each row chosen on the way the column branched on has been covered,
and then the other columns of the row. Nothing that was tried before on other branches is left,
and uncovering the columns in the opposite order restores the matrix.

## Key results

- `visit_leaves`: how the search leaves a node
- `solveUpTo_leaves_below`: how a run leaves the matrix when it stops or is cut off
-/

namespace ExactCover

/-- From the matrix `m₀` rows have been chosen one after the other, each by its entry in the column
    that the rule has chosen to branch on. For each row this column has been covered first and then
    the other columns of the row, from the entry to the right. `ids` are the entries, `columns` all
    columns covered and `m` is the matrix in the end. -/
inductive Matrix.Descended (rule : Selection) (m₀ : Matrix) :
    List Nat → List Nat → Matrix → Prop
  | root : Descended rule m₀ [] [] m₀
  | choose {ids columns entries others : List Nat} {m m' : Matrix} {c id : Nat}
      (above : Descended rule m₀ ids columns m) (branch : rule.select m = .ok (some c))
      (column : m.ring (·.down) (header c) = .ok entries) (mem : id ∈ entries)
      (row : m.otherColumns id = .ok others)
      (cover : (c :: others).foldlM Matrix.cover m = .ok m') :
      Descended rule m₀ (ids ++ [id]) (columns ++ c :: others) m'

namespace Matrix

/-- The matrix `m` is what a search makes of `m₀` by choosing the entries `ids` one after the other,
    for which it covers `columns`. Its links are in order, and uncovering the columns in the
    opposite order gives back `m₀`. -/
structure CoveredBelow (rule : Selection) (m₀ : Matrix) (ids columns : List Nat) (m : Matrix) :
    Prop where
  descended : m₀.Descended rule ids columns m
  check : m.check = .ok ()
  undo : columns.reverse.foldlM Matrix.uncover m = .ok m₀

variable {rule : Selection} {m₀ m : Matrix} {ids columns : List Nat}

/-- All columns have been covered one after the other. -/
private theorem Descended.foldlM_cover (h : m₀.Descended rule ids columns m) :
    columns.foldlM Matrix.cover m₀ = .ok m := by
  -- induction on the rows chosen
  induction h with
  | root => rfl
  | choose _ _ _ _ _ hcover ih =>
    rw [List.foldlM_append, ih, ok_bind]
    exact hcover

end Matrix

namespace Search

variable {α : Type} {t : Table} {rule : Selection} {m m' : Matrix} {s₀ s s' : Search}
  {columns done rest : List Nat} {c i id steps depth fuel : Nat}

/-! ## Nodes -/

/-- The search stands at a node of its tree, to which it has come down from the matrix `m` by the
    rows chosen. -/
structure Stands (t : Table) (rule : Selection) (m : Matrix) (s : Search) (columns : List Nat) :
    Prop where
  path : m.Descended rule s.chosen.reverse columns s.matrix
  selection : s.selection = rule
  covered : s.matrix.Covered t columns
  entries : ∀ id ∈ s.chosen, ∃ i, ∃ c ∈ t.columns i, id = t.entry i c

/-- The search has covered the column `c` to branch on it at the node where `s₀` stands. -/
structure Branched (t : Table) (rule : Selection) (m : Matrix) (s₀ : Search) (columns : List Nat)
    (c : Nat) (s : Search) : Prop where
  stands : Stands t rule m s₀ columns
  select : rule.select s₀.matrix = .ok (some c)
  cover : s₀.matrix.cover c = .ok s.matrix
  covered : s.matrix.Covered t (columns ++ [c])
  same : Restored { s₀ with matrix := s.matrix } s

/-- The search stands at the same node whatever it has counted and found. -/
theorem Stands.restored (h : Stands t rule m s columns) (hs : Restored s s') :
    Stands t rule m s' columns where
  path := by
    rw [hs.chosen, hs.matrix]
    exact h.path
  selection := hs.selection.trans h.selection
  covered := hs.matrix ▸ h.covered
  entries := hs.chosen ▸ h.entries

/-- Nothing but the columns on the way to the node is covered. -/
private theorem Stands.coveredBelow (h : Stands t rule m s columns) (hm : m.Covered t []) :
    m.CoveredBelow rule s.chosen.reverse columns s.matrix := by
  refine ⟨h.path, h.covered.shows.check_eq, ?_⟩
  -- the columns have been covered in this order, and so they can be uncovered again
  obtain ⟨m', hcover, -, hundo⟩ := hm.coverAll columns h.covered.lt h.covered.nodup
  cases hcover.symm.trans h.path.foldlM_cover
  exact hundo

/-- The rows chosen may be read from the matrix as it was before the search. -/
theorem Stands.mapM_rowOf (h : Stands t rule m s columns) (hm : m.Covered t []) :
    s.chosen.reverse.mapM m.rowOf = s.chosen.reverse.mapM s.matrix.rowOf := by
  refine mapM_congr fun id hid => ?_
  obtain ⟨i, c, hc, rfl⟩ := h.entries id (List.mem_reverse.mp hid)
  rw [hm.shows.rowOf_eq hc, h.covered.shows.rowOf_eq hc]

/-- The search has branched at the same node whatever it has counted and found. -/
theorem Branched.restored (h : Branched t rule m s₀ columns c s) (hs : Restored s s') :
    Branched t rule m s₀ columns c s' where
  stands := h.stands
  select := h.select
  cover := hs.matrix ▸ h.cover
  covered := hs.matrix ▸ h.covered
  same := by
    have hsame := h.same.trans hs
    rw [← hs.matrix] at hsame
    exact hsame

/-- The column branched on has not been covered before. -/
theorem Branched.not_mem (h : Branched t rule m s₀ columns c s) : c ∉ columns :=
  Matrix.not_mem_of_nodup_append h.covered.nodup

/-- The column branched on is a column of the matrix. -/
theorem Branched.lt (h : Branched t rule m s₀ columns c s) : c < t.columnCount :=
  h.covered.lt c (by simp)

/-- The rule chooses an active column. -/
private theorem Stands.mem_of_select (h : Stands t rule m s columns)
    (hselect : rule.select s.matrix = .ok (some c)) : c < t.columnCount ∧ c ∉ columns := by
  have hshows := h.covered.shows
  have hchoose := Selection.select_eq rule hshows.activeColumns_eq
    fun d hd => hshows.columnSize_eq (Table.mem_active.mp hd).1
  rw [hselect, Except.ok.injEq] at hchoose
  exact Table.mem_active.mp (Selection.mem_of_choose_eq_some hchoose.symm)

/-- The search stands at a node below when a row of the column branched on has been chosen. -/
theorem Branched.choose (h : Branched t rule m s₀ columns c s) (hi : i ∈ t.linked columns c)
    (hall : (t.others i c).foldlM Matrix.cover s.matrix = .ok m')
    (hcovered : m'.Covered t (columns ++ c :: t.others i c))
    (hs : Restored { s with matrix := m', chosen := t.entry i c :: s.chosen } s') :
    Stands t rule m s' (columns ++ c :: t.others i c) := by
  have hic : c ∈ t.columns i := (Table.mem_linked.mp hi).1
  have hshows := h.stands.covered.shows
  have hchosen : s'.chosen = t.entry i c :: s₀.chosen := by
    rw [hs.chosen, h.same.chosen]
  refine ⟨?_, hs.selection.trans (h.same.selection.trans h.stands.selection),
    hs.matrix ▸ hcovered, fun id hid => ?_⟩
  · -- the column and the row are read where the search has branched
    rw [hs.matrix, hchosen, List.reverse_cons]
    refine .choose h.stands.path h.select (hshows.column c h.lt).ring_eq
      (List.mem_map_of_mem hi) (hshows.otherColumns_eq hic) ?_
    rw [List.foldlM_cons, h.cover, ok_bind, hall]
  · rw [hchosen] at hid
    rcases List.mem_cons.mp hid with rfl | hid
    · exact ⟨i, c, hic, rfl⟩
    · exact h.stands.entries id hid

/-! ## Leaving a node -/

/-- The search stands at a node without active columns, and the rows chosen are the exact cover
    found last. -/
structure Solved (t : Table) (rule : Selection) (m : Matrix) (s : Search) (columns : List Nat) :
    Prop where
  stands : Stands t rule m s columns
  isSolved : s.matrix.isSolved = true
  last : ∃ rows, s.chosen.reverse.mapM s.matrix.rowOf = .ok rows ∧
    s.found.toList.getLast? = some rows

/-- How the search leaves a node to which it has come as `s`: it has seen the whole tree below and
    is back, or it has come to an exact cover and stops there, or it has come to a node where it is
    cut off. Nothing is said of a search that a counter has ended. -/
def Leaves (t : Table) (rule : Selection) (m : Matrix) (s : Search) :
    EStateM.Result Halt Search Outcome → Prop
  | .ok .exhausted s' => Restored s s'
  | .ok .stopped s' => ∃ columns, Solved t rule m s' columns
  | .error (.nodeLimit _) s' => ∃ columns, Stands t rule m s' columns
  | .error _ _ => True

/-- What has been counted and found on the way to the node does not matter. -/
theorem Leaves.trans (hs : Restored s₀ s) {r : EStateM.Result Halt Search Outcome}
    (h : Leaves t rule m s r) : Leaves t rule m s₀ r := by
  match r, h with
  | .ok .exhausted _, h => exact hs.trans h
  | .ok .stopped _, h => exact h
  | .error (.nodeLimit _) _, h => exact h
  | .error .spent _, _ | .error (.broken _) _, _ | .error (.coverLength _) _, _
  | .error (.fault _) _, _ => trivial

/-- The search goes on after a step. -/
theorem Leaves.step {x : Run α} {g : α → Run Outcome} {a : α} (hx : x s = .ok a s')
    (h : Leaves t rule m s₀ (g a s')) : Leaves t rule m s₀ ((x >>= g) s) := by
  rwa [bind_of_ok hx]

/-- A step on links or counters that fails ends the search. -/
private theorem Leaves.lift_bind {x : Except Fault α} {g : α → Run Outcome}
    (h : ∀ a, x = .ok a → Leaves t rule m s₀ (g a s)) : Leaves t rule m s₀ ((lift x >>= g) s) := by
  cases x with
  | ok a => exact .step (x := lift (.ok a)) rfl (h a rfl)
  | error cause =>
    have hlift : (lift (.error cause) : Run α) s = .error (.fault cause) s := rfl
    rw [bind_of_error hlift]
    trivial

/-- A question to the matrix that fails ends the search. -/
theorem Leaves.ask_bind {f : Matrix → Except Fault α} {g : α → Run Outcome}
    (h : ∀ a, f s.matrix = .ok a → Leaves t rule m s₀ (g a s)) :
    Leaves t rule m s₀ ((ask f >>= g) s) := by
  rw [ask, bind_assoc]
  exact .step (x := get) rfl (.lift_bind h)

/-- A counter that is full ends the search, and what it counts changes nothing else. -/
theorem Leaves.count_bind {f : Stats → Except Fault Stats} {g : Unit → Run Outcome}
    (h : ∀ s', Restored s s' → s'.found = s.found → Leaves t rule m s₀ (g () s')) :
    Leaves t rule m s₀ ((count f >>= g) s) := by
  rw [count, bind_assoc]
  refine .step (x := get) rfl ?_
  rw [bind_assoc]
  refine .lift_bind fun stats _ => ?_
  exact .step (x := modify _) rfl (h _ ⟨rfl, rfl, rfl, rfl, rfl, rfl⟩ rfl)

/-- Entering a node changes nothing but counters, and may be where the search is cut off. -/
theorem Leaves.enter_bind {g : Unit → Run Outcome} (h : Stands t rule m s columns)
    (hg : ∀ s', Restored s s' → Leaves t rule m s₀ (g () s')) :
    Leaves t rule m s₀ ((enter depth >>= g) s) := by
  rw [enter, bind_assoc]
  refine .count_bind fun s' hs' _ => ?_
  have h' := h.restored hs'
  rw [bind_assoc]
  refine .step (x := get) rfl ?_
  rw [bind_assoc]
  refine .step (x := get) rfl ?_
  -- above the limit the search is cut off here; within it the links are checked
  cases s'.stats.exceeds s'.maxNodes with
  | some limit => exact ⟨columns, h'⟩
  | none =>
    rw [bind_assoc]
    refine .step (x := get) rfl ?_
    rw [h'.covered.shows.check_eq]
    exact hg s' hs'

/-- Columns that can be covered are covered one after the other. -/
private theorem Leaves.coverColumns_bind {ds : List Nat} {g : PUnit → Run Outcome}
    (hcover : ds.foldlM Matrix.cover s.matrix = .ok m')
    (hg : ∀ s', Restored { s with matrix := m' } s' → Leaves t rule m s₀ (g ⟨⟩ s')) :
    Leaves t rule m s₀ ((ds.forM coverColumn >>= g) s) := by
  -- induction on the columns
  induction ds generalizing s with
  | nil =>
    cases hcover
    exact hg s (.refl s)
  | cons d ds ih =>
    rw [List.foldlM_cons] at hcover
    obtain ⟨m₁, hd, hcover⟩ := bind_eq_ok.mp hcover
    show Leaves t rule m s₀ (((coverColumn d >>= fun _ => ds.forM coverColumn) >>= g) s)
    rw [bind_assoc, coverColumn, bind_assoc]
    refine .count_bind fun s' hs' _ => ?_
    refine .step (onMatrix_eq (hs'.matrix ▸ hd)) (ih hcover fun s'' hs'' => hg s'' ?_)
    exact (hs'.onMatrix m').trans hs''

/-- The search goes on where all below has been seen, and nothing is done once it has stopped. -/
theorem Leaves.bind {x : Run Outcome} {g : Outcome → Run Outcome} (hx : Leaves t rule m s (x s'))
    (hstop : ∀ s', g .stopped s' = .ok .stopped s')
    (hg : ∀ s', Restored s s' → Leaves t rule m s₀ (g .exhausted s')) :
    Leaves t rule m s₀ ((x >>= g) s') := by
  -- all seen below, an exact cover, or no answer
  cases hr : x s' with
  | ok o s₁ =>
    rw [hr] at hx
    rw [bind_of_ok hr]
    cases o with
    | exhausted => exact hg s₁ hx
    | stopped =>
      rw [hstop]
      exact hx
  | error halt s₁ =>
    rw [hr] at hx
    rw [bind_of_error hr]
    cases halt <;> exact hx

/-! ## The tree below a node -/

/-- At a node without active columns the rows chosen are kept, and they are the last exact cover if
    the search stops there. -/
private theorem record_leaves (h : Stands t rule m s columns) (hsolved : s.matrix.isSolved = true) :
    Leaves t rule m s (record s) := by
  rw [record]
  refine .step (x := get) rfl (.ask_bind fun rows hrows => ?_)
  refine .step (x := modify _) rfl (.count_bind fun s' hs' hfound => ?_)
  have hs : Restored s s' := ⟨hs'.matrix, hs'.selection, hs'.maxNodes, hs'.chosen, hs'.wanted,
    hs'.spent⟩
  refine .step (x := get) rfl ?_
  -- the search stops with the exact cover kept last, or it goes back
  by_cases hwanted : s'.wanted ≤ s'.found.size
  · rw [if_pos hwanted]
    refine ⟨columns, h.restored hs, hs.matrix ▸ hsolved, rows, ?_, ?_⟩
    · rw [hs.chosen, hs.matrix]
      exact hrows
    · rw [hfound, Array.toList_push, List.getLast?_concat]
  · rw [if_neg hwanted]
    exact hs

/-- The rows of the column branched on are tried one after the other. -/
private theorem tryRows_leaves {below : Run Outcome} (h : Branched t rule m s₀ columns c s)
    (done : List Nat) (hl : t.linked columns c = done ++ rest) (hsteps : rest.length < steps)
    (hid : (rest.map (t.entry · c) ++ [Matrix.header c]).head? = some id)
    (hbelow : ∀ i ∈ t.linked columns c, ∀ s, Stands t rule m s (columns ++ c :: t.others i c) →
      Leaves t rule m s (below s)) :
    Leaves t rule m s (tryRows below (Matrix.header c) steps id s) := by
  -- induction on the rows not tried yet; `id` is the entry of the first of them or the header
  induction rest generalizing done s steps id with
  | nil =>
    obtain ⟨k, rfl⟩ := Nat.exists_eq_add_one_of_ne_zero (Nat.ne_zero_of_lt hsteps)
    rw [List.map_nil, List.nil_append, List.head?_cons, Option.some.injEq] at hid
    rw [tryRows, if_pos hid.symm]
    exact .refl s
  | cons i rest ih =>
    obtain ⟨k, rfl⟩ := Nat.exists_eq_add_one_of_ne_zero (Nat.ne_zero_of_lt hsteps)
    rw [List.map_cons, List.cons_append, List.head?_cons, Option.some.injEq] at hid
    subst hid
    have hi : i ∈ t.linked columns c := by rw [hl]; simp
    have hic : c ∈ t.columns i := (Table.mem_linked.mp hi).1
    obtain ⟨m', hall, hcovered, hback⟩ := h.covered.choose h.not_mem hi
    rw [tryRows, if_neg (t.entry_ne_header i h.lt)]
    -- the row is chosen and its other columns are covered
    refine .step (x := modify _) rfl (.step (ask_eq (h.covered.shows.otherColumns_eq hic)) ?_)
    refine .coverColumns_bind hall fun s₁ hs₁ => ?_
    have h₁ := h.choose hi hall hcovered hs₁
    refine .bind (hbelow i hi s₁ h₁) (fun _ => rfl) fun s₂ hs₂ => ?_
    -- the row is given up and its other columns are uncovered
    have hs₂ : Restored { s with matrix := m', chosen := t.entry i c :: s.chosen } s₂ :=
      hs₁.trans hs₂
    have hmatrix : s₂.matrix = m' := hs₂.matrix
    refine .step (uncoverColumns_eq (hmatrix ▸ hback)) (.step (x := modify _) rfl ?_)
    refine .count_bind fun s₃ hs₃ _ => ?_
    have hsame : Restored s s₃ := hs₂.takeBack hs₃
    -- all is as it was before the row, so its link down leads to the next row
    have h' := h.restored hsame
    obtain ⟨n, hn, hy⟩ := h'.covered.entry_down h.not_mem hl
    refine .step (ask_eq hn) (.trans hsame ?_)
    refine ih h' (done ++ [i]) ?_ (by simpa using hsteps) hy
    rw [hl, List.append_assoc]
    rfl

/-- The column to branch on is covered, its rows are tried, and it is uncovered. -/
private theorem branch_leaves {below : Run Outcome} (h : Stands t rule m s columns)
    (hselect : rule.select s.matrix = .ok (some c))
    (hbelow : ∀ i ∈ t.linked columns c, ∀ s, Stands t rule m s (columns ++ c :: t.others i c) →
      Leaves t rule m s (below s)) :
    Leaves t rule m s
      ((do
        coverColumn c
        let head ← lift (Matrix.headerOf c)
        let first := (← ask (·.node head)).down
        match ← tryRows below head (← get).matrix.nodes.size first with
        | .stopped => return .stopped
        | .exhausted =>
          uncoverColumn c
          return .exhausted : Run Outcome) s) := by
  -- the column is active, so it can be covered and uncovered again
  obtain ⟨hlt, hc⟩ := h.mem_of_select hselect
  obtain ⟨m', hcover, hcovered, huncover⟩ := h.covered.cover hlt hc
  rw [coverColumn, bind_assoc]
  refine .count_bind fun s₁ hs₁ _ => .step (onMatrix_eq (hs₁.matrix ▸ hcover)) ?_
  have hs₁ := hs₁.onMatrix m'
  have hbranched : Branched t rule m s columns c { s₁ with matrix := m' } :=
    ⟨h, hselect, hcover, hcovered, hs₁⟩
  obtain ⟨n, hn, hlength, hy⟩ := hcovered.header_down hc
  refine .step (x := lift _) (a := Matrix.header c) (by rw [Table.headerOf_eq hlt]; rfl) ?_
  refine .step (ask_eq hn) (.step (x := get) rfl ?_)
  -- its rows are tried from the first on
  refine .bind (tryRows_leaves hbranched [] rfl hlength hy hbelow) (fun _ => rfl) fun s₂ hs₂ => ?_
  have hmatrix : s₂.matrix = m' := hs₂.matrix
  refine .step (onMatrix_eq (hmatrix ▸ huncover)) ?_
  exact (hs₁.trans hs₂).onMatrix s.matrix

/-- How the search leaves a node. -/
theorem visit_leaves (fuel depth : Nat) (h : Stands t rule m s columns) :
    Leaves t rule m s (visit fuel depth s) := by
  -- induction on the fuel: one row is chosen for each level below
  induction fuel generalizing depth columns s with
  | zero => trivial
  | succ fuel ih =>
    rw [visit]
    refine .enter_bind h fun s₁ hs₁ => .trans hs₁ ?_
    have h₁ := h.restored hs₁
    refine .step (x := get) rfl ?_
    -- the rows chosen are an exact cover
    by_cases hsolved : s₁.matrix.isSolved = true
    · rw [if_pos hsolved]
      exact record_leaves h₁ hsolved
    rw [if_neg hsolved]
    -- a column is selected; without one, or with one that has no rows, the search goes back
    refine .step (x := get) rfl (.ask_bind fun branch hselect => ?_)
    rw [h₁.selection] at hselect
    cases branch with
    | none => exact .refl s₁
    | some c =>
      refine .ask_bind fun size _ => ?_
      by_cases hsize : size = 0
      · rw [if_pos hsize]
        exact .refl s₁
      · rw [if_neg hsize]
        -- the rows of the column are tried, and below each of them the tree is one level lower
        exact branch_leaves h₁ hselect fun i _ s hs => ih (depth + 1) hs

/-! ## Runs -/

/-- How the search leaves the root of its tree. -/
theorem Ready.visitRoot_leaves {maxNodes : Option Nat} (h : Ready m rule maxNodes s)
    (hm : m.Covered t []) (max : Nat) :
    Leaves t rule m { s with wanted := max } (visitRoot { s with wanted := max }) := by
  -- at the root nothing has been chosen
  obtain ⟨rfl, rfl, -, hchosen, -, -⟩ := h
  have hstands : Stands t s.selection s.matrix { s with wanted := max } [] := by
    refine ⟨?_, rfl, hm, ?_⟩
    · rw [hchosen]
      exact .root
    · simp [hchosen]
  exact visit_leaves wordBound 0 hstands

/-- A run that finds as many exact covers as asked for stops at a node. -/
private theorem Ready.solved_of_solveUpTo {maxNodes : Option Nat} {max : Nat}
    {found : List (List Nat)} (h : Ready m rule maxNodes s) (hm : m.Covered t []) (hmax : 1 ≤ max)
    (hrun : Search.solveUpTo max s = .ok found s') (hlength : found.length = max) :
    ∃ s₁ columns, Solved t rule m s₁ columns ∧ s₁.matrix = s'.matrix ∧ s₁.found.toList = found := by
  -- a run that has found enough spends the search
  rcases h.solveUpTo hm hrun with ⟨-, hless⟩ | ⟨hspent, -, -⟩
  · exact absurd hlength (Nat.ne_of_lt (hless hmax))
  have hleaves := h.visitRoot_leaves hm max
  rw [solveUpTo_eq h.spent hmax] at hrun
  generalize visitRoot _ = r at hleaves hrun
  match r, hleaves, hrun with
  | .ok .exhausted s₁, hback, hrun =>
    -- the search would not be spent
    cases hrun
    exact nomatch hspent.symm.trans (hback.spent.trans h.spent)
  | .ok .stopped s₁, ⟨columns, hsolved⟩, hrun =>
    cases hrun
    exact ⟨s₁, columns, hsolved, rfl, rfl⟩

/-- A run that is cut off ends at a node. -/
private theorem Ready.stands_of_nodeLimit {maxNodes : Option Nat} {max limit : Nat}
    (h : Ready m rule maxNodes s) (hm : m.Covered t []) (hmax : 1 ≤ max)
    (hrun : Search.solveUpTo max s = .error (.nodeLimit limit) s') :
    ∃ s₁ columns, Stands t rule m s₁ columns ∧ s₁.matrix = s'.matrix := by
  have hleaves := h.visitRoot_leaves hm max
  rw [solveUpTo_eq h.spent hmax] at hrun
  generalize visitRoot _ = r at hleaves hrun
  match r, hleaves, hrun with
  | .error (.nodeLimit _) s₁, ⟨columns, hstands⟩, hrun =>
    cases hrun
    exact ⟨s₁, columns, hstands, rfl⟩

/-- A run that finds as many exact covers as asked for leaves the matrix covered along the rows of
    the last of them, and no column is active. A run that meets the limit of nodes leaves it
    covered along some rows of the tree. Nothing else is covered, whatever has been tried before. -/
theorem solveUpTo_leaves_below (selection : Selection) (maxNodes : Option Nat) {n max : Nat}
    {rows : List (Nat × List Nat)} {m₀ m : Matrix} (hcreate : Matrix.create n = .ok m₀)
    (hadd : rows.foldlM (fun m r => m.addRow r.1 r.2) m₀ = .ok m) (hmax : 1 ≤ max)
    {requests : List Request} {answers : List (List (List Nat))} {s : Search}
    (hrequests : run { matrix := m, selection, maxNodes } (requests.mapM Request.answer) =
      (.ok answers, s)) :
    (∀ found s', run s (solveUpTo max) = (.ok found, s') → found.length = max →
      ∃ ids columns rows, m.CoveredBelow selection ids columns s'.matrix ∧
        ids.mapM m.rowOf = .ok rows ∧ found.getLast? = some rows ∧
        s'.matrix.isSolved = true ∧ s'.matrix.activeColumns = .ok []) ∧
    ∀ limit s', run s (solveUpTo max) = (.error (.nodeLimit limit), s') →
      ∃ ids columns, m.CoveredBelow selection ids columns s'.matrix := by
  obtain ⟨t, -, -, ht⟩ := Matrix.covered_of_create hcreate hadd
  rcases Ready.answers (.inl (ready_new m selection maxNodes)) ht
    (run_eq_ok_iff.mp hrequests) with h | hspent
  · refine ⟨fun found s' hrun hlength => ?_, fun limit s' hrun => ?_⟩
    · obtain ⟨s₁, columns, hsolved, hmatrix, hfound⟩ :=
        h.solved_of_solveUpTo ht hmax (run_eq_ok_iff.mp hrun) hlength
      rw [← hmatrix]
      obtain ⟨hstands, hempty, last, hlast, hfinal⟩ := hsolved
      have hshows := hstands.covered.shows
      refine ⟨s₁.chosen.reverse, columns, last, hstands.coveredBelow ht,
        (hstands.mapM_rowOf ht).trans hlast, hfound ▸ hfinal, hempty, ?_⟩
      rw [hshows.isSolved_eq, List.isEmpty_iff] at hempty
      rw [hshows.activeColumns_eq, hempty]
    · obtain ⟨s₁, columns, hstands, hmatrix⟩ :=
        h.stands_of_nodeLimit ht hmax (run_eq_error_iff.mp hrun)
      rw [← hmatrix]
      exact ⟨s₁.chosen.reverse, columns, hstands.coveredBelow ht⟩
  · -- a search that is spent is neither stopped nor cut off
    have hfails := solveUpTo_of_spent hspent max
    refine ⟨fun found s' hrun _ => ?_, fun limit s' hrun => ?_⟩
    · exact nomatch hfails.symm.trans (run_eq_ok_iff.mp hrun)
    · exact nomatch hfails.symm.trans (run_eq_error_iff.mp hrun)

/-- A run that stops at the second of two exact covers, on a search that has found both before, and
    a run that is cut off. -/
theorem solveUpTo_leaves_below_stopped_and_cut_off :
    ∃ m₀ m : Matrix, Matrix.create 3 = .ok m₀ ∧
      [(7, [0, 1]), (8, [2]), (7, [0]), (9, [1, 2]), (5, [])].foldlM
        (fun (m : Matrix) r => m.addRow r.1 r.2) m₀ = .ok m ∧ 1 ≤ 2 ∧
      (∃ (s s' : Search) (answers : List (List (List Nat))) (found : List (List Nat)),
        run { matrix := m, selection := .minimumSize, maxNodes := none }
          ([.upTo 9].mapM Request.answer) = (.ok answers, s) ∧
        run s (solveUpTo 2) = (.ok found, s') ∧ found.length = 2 ∧
        ∃ ids columns rows, m.CoveredBelow .minimumSize ids columns s'.matrix ∧
          ids.mapM m.rowOf = .ok rows ∧ found.getLast? = some rows ∧
          s'.matrix.isSolved = true ∧ s'.matrix.activeColumns = .ok []) ∧
      ∃ (s s' : Search) (answers : List (List (List Nat))),
        run { matrix := m, selection := .firstSingleton, maxNodes := some 2 }
          ([].mapM Request.answer) = (.ok answers, s) ∧
        run s (solveUpTo 2) = (.error (.nodeLimit 2), s') ∧
        ∃ ids columns, m.CoveredBelow .firstSingleton ids columns s'.matrix := by
  have hruns : ([(7, [0, 1]), (8, [2]), (7, [0]), (9, [1, 2]), (5, [])].foldlM
      (fun (m : Matrix) r => m.addRow r.1 r.2) (Matrix.empty 3)).map (fun m =>
        let x := run { matrix := m, selection := .minimumSize, maxNodes := none }
          ([.upTo 9].mapM Request.answer)
        (x.1 >>= fun _ => (run x.2 (solveUpTo 2)).1,
          (run { matrix := m, selection := .firstSingleton, maxNodes := some 2 }
            (solveUpTo 2)).1)) =
      .ok (.ok [[7, 8], [7, 9]], .error (.nodeLimit 2)) := by
    decide +kernel
  obtain ⟨m, hadd, hm⟩ := exists_of_map_eq_ok hruns
  obtain ⟨hstopped, hcut⟩ := Prod.mk.inj hm
  obtain ⟨answers, hanswers, hfound⟩ := bind_eq_ok.mp hstopped
  have hanswers := Prod.fst_eq_iff.mp hanswers
  have hfound := Prod.fst_eq_iff.mp hfound
  have hcut := Prod.fst_eq_iff.mp hcut
  have hnone : run { matrix := m, selection := .firstSingleton, maxNodes := some 2 }
      (([] : List Request).mapM Request.answer) = (.ok [], _) := rfl
  refine ⟨_, m, rfl, hadd, by decide, ⟨_, _, answers, _, hanswers, hfound, by decide, ?_⟩,
    _, _, [], hnone, hcut, ?_⟩
  · exact (solveUpTo_leaves_below .minimumSize none (n := 3) rfl hadd (by decide)
      hanswers).1 _ _ hfound (by decide)
  · exact (solveUpTo_leaves_below .firstSingleton (some 2) (n := 3) rfl hadd (by decide)
      hnone).2 _ _ hcut

end Search
end ExactCover
