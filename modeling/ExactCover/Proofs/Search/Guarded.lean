import ExactCover.Proofs.Matrix.Nesting
import ExactCover.Proofs.Search.Calls

/-!
# A guarded search

The search below has a guard before each of its steps and ends at once if one of them finds
something wrong. When a node is entered the links must be in order, a column must be active when
it is covered, and no operation on links, sizes or rows may fail. The other columns of a row are
covered while its ring is followed, so that each link is read from the matrix as the cover before
has left it.

No guard ever finds anything: on a matrix whose columns have been covered one after the other the
guarded search does exactly what the search does. Whatever way it ends, also if it is cut off or a
counter is full, the matrix is left with some columns covered one after the other.

## Key results

- `coverRow_sound`: the columns of a row are covered while its ring is followed
- `visit_sound`: the search below a node
-/

namespace ExactCover.Search

/-- Why a guarded search ends without an answer. -/
inductive Stop where
  /-- For a reason that ends the search without guards. -/
  | halt (halt : Halt)
  /-- The links are not in order when a node is entered. -/
  | broken (error : LinkError)
  /-- The column is to be covered and is not active. -/
  | inactive (column : Nat)
  /-- An operation on links, sizes or rows fails. -/
  | fault (cause : Fault)

/-- A computation of a guarded search. -/
abbrev Guarded := EStateM Stop Search

namespace Guarded

/-! ## The guards -/

/-- Without a guard, since the matrix is not looked at. -/
def plain (x : Run α) : Guarded α := fun s =>
  match x s with
  | .ok a s' => .ok a s'
  | .error halt s' => .error (.halt halt) s'

/-- Asks the matrix, which must be able to answer. -/
def ask (f : Matrix → Except Fault α) : Guarded α := do
  match f (← get).matrix with
  | .ok a => return a
  | .error cause => throw (.fault cause)

/-- Changes the matrix, which must be possible. -/
def onMatrix (f : Matrix → Except Fault Matrix) : Guarded Unit := do
  let matrix ← ask f
  modify fun s => { s with matrix }

/-- Enters a node, at which the links must be in order. -/
def enter (depth : Nat) : Guarded Unit := do
  match (← get).matrix.check with
  | .ok () => plain (Search.enter depth)
  | .error error => throw (.broken error)

/-- Covers a column, which must be active. -/
def coverColumn (column : Nat) : Guarded Unit := do
  plain (count (·.cover))
  if column ∈ (← ask (·.activeColumns)) then onMatrix (·.cover column)
  else throw (.inactive column)

/-- Uncovers a column. -/
def uncoverColumn (column : Nat) : Guarded Unit :=
  onMatrix (·.uncover column)

/-- Keeps the rows chosen. Each must have been chosen by an entry. -/
def record : Guarded Outcome := do
  let chosen := (← get).chosen.reverse
  let rows ← ask fun m => chosen.mapM m.rowOf
  modify fun s => { s with found := s.found.push rows }
  plain (count (·.solve))
  let s ← get
  return if s.wanted ≤ s.found.size then .stopped else .exhausted

/-- Follows the ring of a row from the entry `id` to the right, in so many steps at most, and
    covers the columns met until it is back at the entry `row`. -/
def coverRow (row : Nat) : Nat → Nat → Guarded (List Nat)
  | 0, _ => throw (.fault .endless)
  | steps + 1, id => do
    if id = row then
      return []
    let column ← ask (·.columnOf id)
    coverColumn column
    let next := (← ask (·.node id)).right
    return column :: (← coverRow row steps next)

/-- Tries the rows of a column from the entry `row` down, in so many steps at most. -/
def tryRows (below : Guarded Outcome) (head : Nat) : Nat → Nat → Guarded Outcome
  | 0, _ => throw (.fault .endless)
  | steps + 1, row => do
    if row = head then
      return .exhausted
    modify fun s => { s with chosen := row :: s.chosen }
    let next := (← ask (·.node row)).right
    let others ← coverRow row (← get).matrix.nodes.size next
    match ← below with
    | .stopped => return .stopped
    | .exhausted =>
      others.reverse.forM uncoverColumn
      modify fun s => { s with chosen := s.chosen.tail }
      plain (count (·.backtrack))
      let entry ← ask (·.node row)
      tryRows below head steps entry.down

/-- Searches the tree below a node. -/
def visit : Nat → Nat → Guarded Outcome
  | 0, _ => throw (.fault .endless)
  | fuel + 1, depth => do
    enter depth
    if (← get).matrix.isSolved then
      return ← record
    let some column ← ask (← get).selection.select | return .exhausted
    if (← ask (·.columnSize column)) = 0 then
      return .exhausted
    coverColumn column
    let head ← ask fun _ => Matrix.headerOf column
    let first := (← ask (·.node head)).down
    match ← tryRows (visit fuel (depth + 1)) head (← get).matrix.nodes.size first with
    | .stopped => return .stopped
    | .exhausted =>
      uncoverColumn column
      return .exhausted

/-- Finds up to `max` exact covers. -/
def solveUpTo (max : Nat) : Guarded (List (List Nat)) := do
  if (← get).spent then
    throw (.halt .spent)
  if max = 0 then
    return []
  modify fun s => { s with wanted := max }
  match ← tryCatch (visit wordBound 0) fun stop => do plain spend; throw stop with
  | .exhausted => pure ()
  | .stopped => plain spend
  let found := (← get).found
  modify fun s => { s with found := #[] }
  return found.toList

/-- The guarded answer to a request. -/
def answer : Request → Guarded (List (List Nat))
  | .one => return (← solveUpTo 1).getLast?.toList
  | .upTo max => solveUpTo max

/-! ## Steps -/

variable {α β γ δ : Type} {t : Table} {s s' : Search} {m' : Matrix} {cs done rest ds : List Nat}
  {c i id steps depth fuel : Nat}

/-- The guarded computation ends as the other one does, no guard has found anything, and the
    matrix is left with some columns covered. `Q` holds of what the two have given. -/
inductive Sound (t : Table) (Q : α → β → Search → Prop) :
    EStateM.Result Stop Search α → EStateM.Result Halt Search β → Prop
  | ok {a : α} {b : β} {s : Search} (h : Q a b s) : Sound t Q (.ok a s) (.ok b s)
  | error {halt : Halt} {s : Search} {cs : List Nat} (h : s.matrix.Covered t cs) :
      Sound t Q (.error (.halt halt) s) (.error halt s)

/-- Sound computations one after the other. -/
theorem Sound.bind {Q : α → β → Search → Prop} {Q' : γ → δ → Search → Prop} {x : Guarded α}
    {y : Run β} {f : α → Guarded γ} {g : β → Run δ} (h : Sound t Q (x s) (y s))
    (hf : ∀ a b s', Q a b s' → Sound t Q' (f a s') (g b s')) :
    Sound t Q' ((x >>= f) s) ((y >>= g) s) := by
  -- two failures stay as they are, and two successes go on with `hf`
  show Sound t Q' (EStateM.bind x f s) (EStateM.bind y g s)
  unfold EStateM.bind
  generalize x s = r at h ⊢
  generalize y s = r' at h ⊢
  cases h with
  | ok h => exact hf _ _ _ h
  | error h => exact .error h

/-- A step of the guarded search alone. -/
theorem Sound.step {Q : γ → β → Search → Prop} {x : Guarded α} {f : α → Guarded γ} {a : α}
    {r : EStateM.Result Halt Search β} (hx : x s = .ok a s') (h : Sound t Q (f a s') r) :
    Sound t Q ((x >>= f) s) r := by
  rwa [bind_of_ok hx]

/-- A step of the search alone. -/
theorem Sound.step_right {Q : α → δ → Search → Prop} {y : Run β} {g : β → Run δ} {b : β}
    {r : EStateM.Result Stop Search α} (hy : y s = .ok b s') (h : Sound t Q r (g b s')) :
    Sound t Q r ((y >>= g) s) := by
  rwa [bind_of_ok hy]

/-- What holds of the results may be weakened. -/
theorem Sound.imp {Q Q' : α → β → Search → Prop} {x : EStateM.Result Stop Search α}
    {y : EStateM.Result Halt Search β} (h : Sound t Q x y) (hQ : ∀ a b s, Q a b s → Q' a b s) :
    Sound t Q' x y := by
  cases h with
  | ok h => exact .ok (hQ _ _ _ h)
  | error h => exact .error h

/-- A question that the matrix answers is answered. -/
theorem ask_eq {f : Matrix → Except Fault α} {a : α} (h : f s.matrix = .ok a) :
    ask f s = .ok a s := by
  rw [ask, bind_of_ok (x := get) rfl, h]
  rfl

/-- A change of the matrix that is possible is made. -/
theorem onMatrix_eq {f : Matrix → Except Fault Matrix} (h : f s.matrix = .ok m') :
    onMatrix f s = .ok () { s with matrix := m' } := by
  rw [onMatrix, bind_of_ok (ask_eq h)]
  rfl

/-- The matrix is asked on both sides, and answers. -/
theorem Sound.ask_bind {Q : γ → δ → Search → Prop} {f : Matrix → Except Fault α} {a : α}
    {g : α → Guarded γ} {g' : α → Run δ} (hf : f s.matrix = .ok a)
    (h : Sound t Q (g a s) (g' a s)) :
    Sound t Q ((ask f >>= g) s) ((Search.ask f >>= g') s) :=
  .step (ask_eq hf) (.step_right (Search.ask_eq hf) h)

/-- The state is changed on both sides. -/
theorem Sound.modify_bind {Q : γ → δ → Search → Prop} {f : Search → Search} {g : PUnit → Guarded γ}
    {g' : PUnit → Run δ} (h : Sound t Q (g ⟨⟩ (f s)) (g' ⟨⟩ (f s))) :
    Sound t Q ((modify f >>= g) s) ((modify f >>= g') s) :=
  .step (x := modify f) rfl (.step_right (y := modify f) rfl h)

/-- What needs no guard is sound if it leaves the matrix alone. -/
private theorem plain_count_sound (h : s.matrix.Covered t cs) (f : Stats → Except Fault Stats) :
    Sound t (fun _ _ s' => Restored s s') (plain (count f) s) (count f s) := by
  rw [plain, count_eq]
  cases f s.stats with
  | ok stats => exact .ok ⟨rfl, rfl, rfl, rfl, rfl, rfl⟩
  | error cause => exact .error h

/-- The links are in order when a node is entered. -/
private theorem enter_sound (h : s.matrix.Covered t cs) (depth : Nat) :
    Sound t (fun _ _ s' => Restored s s') (enter depth s) (Search.enter depth s) := by
  -- the guard finds the links in order
  have hguard : enter depth s = plain (Search.enter depth) s := by
    rw [enter, bind_of_ok (x := get) rfl, h.shows.check_eq]
  rw [hguard, plain, enter_eq]
  cases s.stats.enter depth with
  | error cause => exact .error h
  | ok stats =>
    dsimp only
    cases stats.exceeds s.maxNodes with
    | some limit => exact .error h
    | none =>
      have hcheck : checkedNode { s with stats } = .ok () { s with stats } := by
        rw [checkedNode, h.shows.check_eq]
      dsimp only
      rw [hcheck]
      exact .ok ⟨rfl, rfl, rfl, rfl, rfl, rfl⟩

/-- An active column is covered. -/
private theorem coverColumn_sound (h : s.matrix.Covered t cs) (hlt : c < t.columnCount)
    (hc : c ∉ cs) (hcover : s.matrix.cover c = .ok m') :
    Sound t (fun _ _ s' => Restored { s with matrix := m' } s') (coverColumn c s)
      (Search.coverColumn c s) := by
  rw [coverColumn, Search.coverColumn]
  -- it is counted without a guard, and the guard finds it active
  refine (plain_count_sound h _).bind fun _ _ s₁ hs₁ => ?_
  have h₁ : s₁.matrix.Covered t cs := hs₁.matrix ▸ h
  refine .step (ask_eq h₁.shows.activeColumns_eq) ?_
  rw [if_pos (Table.mem_active.mpr ⟨hlt, hc⟩)]
  have hcover₁ : s₁.matrix.cover c = .ok m' := hs₁.matrix ▸ hcover
  rw [onMatrix_eq hcover₁, Search.onMatrix_eq hcover₁]
  exact .ok (hs₁.onMatrix m')

/-- The other columns of a row are covered while its ring is followed. No cover changes the ring,
    so these are the columns that the row had before. -/
theorem coverRow_sound (h : s.matrix.Covered t cs) (hic : c ∈ t.columns i) (done : List Nat)
    (hl : t.others i c = done ++ rest) (hnodup : (cs ++ rest).Nodup)
    (hcover : rest.foldlM Matrix.cover s.matrix = .ok m') (hsteps : rest.length < steps)
    (hid : (rest.map (t.entry i) ++ [t.entry i c]).head? = some id) :
    Sound t (fun others _ s' => others = rest ∧ Restored { s with matrix := m' } s')
      (coverRow (t.entry i c) steps id s) (rest.forM Search.coverColumn s) := by
  -- induction on the entries not met yet; `id` is the first of them or the entry begun with
  induction rest generalizing done cs s steps id with
  | nil =>
    obtain ⟨k, rfl⟩ := Nat.exists_eq_add_one_of_ne_zero (Nat.ne_zero_of_lt hsteps)
    rw [List.map_nil, List.nil_append, List.head?_cons, Option.some.injEq] at hid
    cases hcover
    rw [coverRow, if_pos hid.symm]
    exact .ok ⟨rfl, .refl s⟩
  | cons d rest ih =>
    obtain ⟨k, rfl⟩ := Nat.exists_eq_add_one_of_ne_zero (Nat.ne_zero_of_lt hsteps)
    rw [List.map_cons, List.cons_append, List.head?_cons, Option.some.injEq] at hid
    subst hid
    obtain ⟨hid, hdc⟩ := (Table.mem_others hic).mp (hl ▸ List.mem_append_right done
      (List.mem_cons_self ..) : d ∈ t.others i c)
    have hne : t.entry i d ≠ t.entry i c := fun heq => hdc (Table.entry_inj hid hic heq).2
    -- the entry leads to a column that is still active, which is covered
    have hd : d ∉ cs := Matrix.not_mem_of_nodup_append hnodup
    rw [List.foldlM_cons] at hcover
    obtain ⟨m₁, hcover₁, hcover⟩ := bind_eq_ok.mp hcover
    rw [coverRow, if_neg hne]
    refine .step (ask_eq (Matrix.columnOf_of_role (h.shows.entryRole i d hid) rfl)) ?_
    show Sound t _ _ ((Search.coverColumn d >>= fun _ => rest.forM Search.coverColumn) s)
    refine (coverColumn_sound h (Table.column_lt hid) hd hcover₁).bind fun _ _ s₁ hs₁ => ?_
    have hm₁ : s₁.matrix = m₁ := hs₁.matrix
    have h₁ : s₁.matrix.Covered t (cs ++ [d]) := by
      obtain ⟨m₂, hcover₂, h₂, -⟩ := h.cover (Table.column_lt hid) hd
      cases hcover₁.symm.trans hcover₂
      rwa [hm₁]
    -- the way on is read from the matrix that the cover has left
    obtain ⟨y, hy⟩ := Matrix.exists_head?_concat (rest.map (t.entry i)) (t.entry i c)
    obtain ⟨n, hn, rfl⟩ := h₁.shows.other_right hic hl hy
    refine .step (ask_eq hn) ?_
    rw [← bind_pure (rest.forM Search.coverColumn)]
    rw [List.append_cons] at hl hnodup
    refine (ih h₁ (done ++ [d]) hl hnodup (hm₁ ▸ hcover) (by simpa using hsteps) hy).bind ?_
    rintro _ _ s₂ ⟨rfl, hs₂⟩
    exact .ok ⟨rfl, (hs₁.onMatrix m').trans hs₂⟩

/-- Columns that can be uncovered are uncovered one after the other. -/
theorem uncoverColumns_eq (huncover : ds.foldlM Matrix.uncover s.matrix = .ok m') :
    ds.forM uncoverColumn s = .ok () { s with matrix := m' } := by
  induction ds generalizing s with
  | nil =>
    cases huncover
    rfl
  | cons d ds ih =>
    rw [List.foldlM_cons] at huncover
    obtain ⟨m, hd, huncover⟩ := bind_eq_ok.mp huncover
    have hstep : uncoverColumn d s = .ok () { s with matrix := m } := onMatrix_eq hd
    exact (bind_of_ok hstep).trans (ih huncover)

/-! ## The tree below a node -/

/-- The search stands somewhere in its tree, where the columns `cs` have been covered and each row
    has been chosen by one of its entries. -/
structure Poised (t : Table) (s : Search) (cs : List Nat) : Prop where
  covered : s.matrix.Covered t cs
  entries : ∀ id ∈ s.chosen, ∃ i, ∃ c ∈ t.columns i, id = t.entry i c

/-- The search has left a node to which it had come as `s`, in the same way with guards and
    without. -/
def Leaves (t : Table) (s : Search) (o o' : Outcome) (s' : Search) : Prop :=
  o = o' ∧ (∃ cs, s'.matrix.Covered t cs) ∧ (o = .exhausted → Restored s s')

/-- The search stands at the same node whatever it has counted and found. -/
theorem Poised.restored (h : Poised t s cs) (hs : Restored s s') : Poised t s' cs where
  covered := hs.matrix ▸ h.covered
  entries := hs.chosen ▸ h.entries

/-- A row is chosen by its entry in a column. -/
theorem Poised.choose (h : Poised t s cs) (hic : c ∈ t.columns i) (hcovered : m'.Covered t ds) :
    Poised t { s with matrix := m', chosen := t.entry i c :: s.chosen } ds where
  covered := hcovered
  entries id hid := by
    rcases List.mem_cons.mp hid with rfl | hid
    · exact ⟨i, c, hic, rfl⟩
    · exact h.entries id hid

/-- Nothing is restored when the search stops. -/
theorem Leaves.stopped (hleft : ∃ cs, s'.matrix.Covered t cs) :
    Leaves t s .stopped .stopped s' :=
  ⟨rfl, hleft, by simp⟩

/-- What has been counted and found on the way to the node does not matter. -/
theorem Leaves.trans {o o' : Outcome} {s₁ : Search} (h : Leaves t s₁ o o' s') (hs : Restored s s₁) :
    Leaves t s o o' s' :=
  ⟨h.1, h.2.1, fun he => hs.trans (h.2.2 he)⟩

/-- The rows chosen are read from entries. -/
private theorem record_sound (h : Poised t s cs) : Sound t (Leaves t s) (record s) (Search.record s)
    := by
  -- each row chosen has an entry, from which its identifier is read
  obtain ⟨rows, hrows⟩ : ∃ rows, s.chosen.reverse.mapM s.matrix.rowOf = .ok rows := by
    refine exists_mapM_eq_ok fun id hid => ?_
    obtain ⟨i, c, hc, rfl⟩ := h.entries id (List.mem_reverse.mp hid)
    exact ⟨_, h.covered.shows.rowOf_eq hc⟩
  rw [record, Search.record]
  refine .step (x := get) rfl (.step_right (y := get) rfl ?_)
  refine .ask_bind hrows (.modify_bind (.bind (plain_count_sound (by exact h.covered) _) ?_))
  intro _ _ s' hs'
  refine .step (x := get) rfl (.step_right (y := get) rfl (.ok ⟨rfl, ⟨cs, ?_⟩, fun _ => ?_⟩))
  · exact hs'.matrix ▸ h.covered
  · exact ⟨hs'.matrix, hs'.selection, hs'.maxNodes, hs'.chosen, hs'.wanted, hs'.spent⟩

/-- The rows of a covered column are tried one after the other. -/
private theorem tryRows_sound {below : Guarded Outcome} {below' : Run Outcome}
    (h : Poised t s (cs ++ [c])) (hc : c ∉ cs) (hlt : c < t.columnCount) (done : List Nat)
    (hl : t.linked cs c = done ++ rest) (hsteps : rest.length < steps)
    (hid : (rest.map (t.entry · c) ++ [Matrix.header c]).head? = some id)
    (hbelow : ∀ i ∈ t.linked cs c, ∀ s, Poised t s (cs ++ c :: t.others i c) →
      Sound t (Leaves t s) (below s) (below' s)) :
    Sound t (Leaves t s) (tryRows below (Matrix.header c) steps id s)
      (Search.tryRows below' (Matrix.header c) steps id s) := by
  -- induction on the rows not tried yet; `id` is the entry of the first of them or the header
  induction rest generalizing done s steps id with
  | nil =>
    obtain ⟨k, rfl⟩ := Nat.exists_eq_add_one_of_ne_zero (Nat.ne_zero_of_lt hsteps)
    rw [List.map_nil, List.nil_append, List.head?_cons, Option.some.injEq] at hid
    rw [tryRows, Search.tryRows, if_pos hid.symm, if_pos hid.symm]
    exact .ok ⟨rfl, ⟨_, h.covered⟩, fun _ => .refl s⟩
  | cons i rest ih =>
    obtain ⟨k, rfl⟩ := Nat.exists_eq_add_one_of_ne_zero (Nat.ne_zero_of_lt hsteps)
    rw [List.map_cons, List.cons_append, List.head?_cons, Option.some.injEq] at hid
    subst hid
    have hi : i ∈ t.linked cs c := by rw [hl]; simp
    have hic : c ∈ t.columns i := (Table.mem_linked.mp hi).1
    have hshows := h.covered.shows
    obtain ⟨m', hall, hcovered, hback⟩ := h.covered.choose hc hi
    have hne : t.entry i c ≠ Matrix.header c := t.entry_ne_header i hlt
    rw [tryRows, Search.tryRows, if_neg hne, if_neg hne]
    -- the row is chosen, and its other columns are covered while its ring is followed
    refine .modify_bind ?_
    obtain ⟨y, hy⟩ := Matrix.exists_head?_concat ((t.others i c).map (t.entry i)) (t.entry i c)
    obtain ⟨n, hn, rfl⟩ := hshows.row_right hic hy
    have hlength := (hshows.row hic).length_lt
    rw [List.length_map] at hlength
    refine .step (ask_eq hn) (.step (x := get) rfl ?_)
    refine .step_right (Search.ask_eq (hshows.otherColumns_eq hic)) ?_
    have hnodup : ((cs ++ [c]) ++ t.others i c).Nodup := by
      rw [List.append_assoc, List.singleton_append]
      exact Table.append_others_nodup h.covered.nodup hc hi
    let s₀ : Search := { s with chosen := t.entry i c :: s.chosen }
    refine (coverRow_sound (s := s₀) h.covered hic [] (List.nil_append _).symm hnodup hall hlength
      hy).bind ?_
    rintro _ _ s₁ ⟨rfl, hs₁⟩
    refine (hbelow i hi s₁ ((h.choose hic hcovered).restored hs₁)).bind ?_
    rintro o _ s₂ ⟨rfl, hleft, hs₂⟩
    cases o with
    | stopped => exact .ok (.stopped hleft)
    | exhausted =>
      -- the row is given up and its other columns are uncovered
      have hs₂ : Restored { s with matrix := m', chosen := t.entry i c :: s.chosen } s₂ :=
        hs₁.trans (hs₂ rfl)
      have hmatrix : s₂.matrix = m' := hs₂.matrix
      rw [← hmatrix] at hback
      refine .step (uncoverColumns_eq hback) (.step_right (Search.uncoverColumns_eq hback) ?_)
      refine .modify_bind (.bind (plain_count_sound (by exact h.covered) _) ?_)
      intro _ _ s₃ hs₃
      have hsame : Restored s s₃ := hs₂.takeBack hs₃
      -- all is as it was before the row, so its link down leads to the next row
      have h₃ := h.restored hsame
      obtain ⟨n, hn, hy⟩ := h₃.covered.entry_down hc hl
      rw [List.append_cons] at hl
      refine .ask_bind hn ((ih h₃ (done ++ [i]) hl (by simpa using hsteps) hy).imp ?_)
      exact fun o o' s₄ hleaves => hleaves.trans hsame

/-- Every level of the tree covers an active column. -/
private theorem length_active_lt (hlt : c < t.columnCount) (hc : c ∉ cs) :
    (t.active (cs ++ c :: ds)).length < (t.active cs).length := by
  have hfilter : t.active (cs ++ c :: ds) = (t.active cs).filter (· ∉ c :: ds) := by
    rw [Table.active, Table.active, List.filter_filter]
    refine List.filter_congr fun d _ => ?_
    rw [Bool.eq_iff_iff]
    simp only [List.mem_append, Bool.and_eq_true, decide_eq_true_eq]
    tauto
  rw [hfilter, List.length_filter_lt_length_iff_exists]
  exact ⟨c, Table.mem_active.mpr ⟨hlt, hc⟩, by simp⟩

/-- No guard finds anything in the tree below a node. -/
theorem visit_sound (h : Poised t s cs) (hfuel : (t.active cs).length < fuel) (depth : Nat) :
    Sound t (Leaves t s) (visit fuel depth s) (Search.visit fuel depth s) := by
  -- induction on the fuel, of which there is more than there are active columns
  induction fuel generalizing s cs depth with
  | zero => exact absurd hfuel (Nat.not_lt_zero _)
  | succ fuel ih =>
    rw [visit, Search.visit]
    refine (enter_sound h.covered depth).bind fun _ _ s₁ hs₁ => ?_
    have h₁ := h.restored hs₁
    have hshows := h₁.covered.shows
    refine .imp (Q := Leaves t s₁) ?_ fun o o' s₂ hleaves => hleaves.trans hs₁
    refine .step (x := get) rfl (.step_right (y := get) rfl ?_)
    -- the rows chosen are an exact cover
    by_cases hsolved : s₁.matrix.isSolved = true
    · rw [if_pos hsolved, if_pos hsolved]
      exact record_sound h₁
    rw [if_neg hsolved, if_neg hsolved]
    -- the rule selects an active column, and the search comes back if that has no rows
    have hselect := Selection.select_eq s₁.selection hshows.activeColumns_eq fun d hd =>
      hshows.columnSize_eq (Table.mem_active.mp hd).1
    refine .step (x := get) rfl (.step_right (y := get) rfl (.ask_bind hselect ?_))
    cases hchoose : s₁.selection.choose (t.active cs) _ with
    | none => exact .ok ⟨rfl, ⟨cs, h₁.covered⟩, fun _ => .refl s₁⟩
    | some c =>
      obtain ⟨hlt, hc⟩ := Table.mem_active.mp (Selection.mem_of_choose_eq_some hchoose)
      refine .ask_bind (hshows.columnSize_eq hlt) ?_
      by_cases hempty : (t.linked cs c).length = 0
      · rw [if_pos hempty, if_pos hempty]
        exact .ok ⟨rfl, ⟨cs, h₁.covered⟩, fun _ => .refl s₁⟩
      rw [if_neg hempty, if_neg hempty]
      -- the column chosen is covered, its rows are tried, and it is uncovered
      obtain ⟨m', hcover, hcovered, huncover⟩ := h₁.covered.cover hlt hc
      refine (coverColumn_sound h₁.covered hlt hc hcover).bind fun _ _ s₂ hs₂ => ?_
      have h₂ : Poised t s₂ (cs ++ [c]) :=
        Poised.restored (s := { s₁ with matrix := m' }) ⟨hcovered, h₁.entries⟩ hs₂
      have hhead := Table.headerOf_eq hlt
      refine .step (ask_eq (f := fun _ => Matrix.headerOf c) hhead) ?_
      refine .step_right (y := lift _) (b := Matrix.header c) (by rw [hhead]; rfl) ?_
      obtain ⟨n, hn, hlength, hy⟩ := h₂.covered.header_down hc
      refine .ask_bind hn (.step (x := get) rfl (.step_right (y := get) rfl ?_))
      refine (tryRows_sound h₂ hc hlt [] rfl hlength hy fun i hi s hs => ?_).bind ?_
      · exact ih hs (Nat.lt_of_lt_of_le (length_active_lt hlt hc) (Nat.le_of_lt_succ hfuel)) _
      · rintro o _ s₃ ⟨rfl, hleft, hs₃⟩
        cases o with
        | stopped => exact .ok (.stopped hleft)
        | exhausted =>
          have hs₃ := hs₂.trans (hs₃ rfl)
          have hmatrix : s₃.matrix = m' := hs₃.matrix
          rw [← hmatrix] at huncover
          refine .step (onMatrix_eq huncover) (.step_right (Search.onMatrix_eq huncover) ?_)
          exact .ok ⟨rfl, ⟨cs, h₁.covered⟩, fun _ => ⟨rfl, hs₃.selection, hs₃.maxNodes,
            hs₃.chosen, hs₃.wanted, hs₃.spent⟩⟩

end Guarded
end ExactCover.Search
