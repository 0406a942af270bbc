import ExactCover.Proofs.AlgorithmX.Depth
import ExactCover.Proofs.Search.Descent
import ExactCover.Proofs.Search.Sequence

/-!
# The accounts of a search

Every node that a search enters is the root of a run, or it lies below a row that has been chosen.
A row that has been chosen is given up later, or it is still chosen when the search stops or is cut
off. So the nodes are as many as the runs, the rows given up and the rows still chosen together.
Every exact cover is counted when it is kept, at a depth that has been noted before.

## Key results

- `visit_accounts`: the search below a node
- `Ready.solveUpTo_accounts`: one run
-/

namespace ExactCover

section

open Search

variable {α β : Type} {C : Search → Prop} {R : β → Search → Prop} {s : Search}

/-- What is asked of the matrix is used. -/
theorem Yields.ask_bind {f : Matrix → Except Fault α} {g : α → Run β}
    (h : ∀ a, f s.matrix = .ok a → Yields C R (g a s)) : Yields C R ((ask f >>= g) s) := by
  cases ha : f s.matrix with
  | ok a => exact .step (ask_eq ha) (h a ha)
  | error cause =>
    have hask : ask f s = .error (.fault cause) s := by
      show lift (f s.matrix) s = _
      rw [ha]
      rfl
    rw [bind_of_error hask]
    trivial

/-- What is counted is used, unless a counter is full. -/
theorem Yields.count_bind {f : Stats → Except Fault Stats} {g : Unit → Run β}
    (h : ∀ stats, f s.stats = .ok stats → Yields C R (g () { s with stats })) :
    Yields C R ((count f >>= g) s) := by
  cases hst : f s.stats with
  | ok stats =>
    refine .step ?_ (h stats hst)
    rw [count_eq, hst]
  | error cause =>
    have hcount : count f s = .error (.fault cause) s := by rw [count_eq, hst]
    rw [bind_of_error hcount]
    trivial

end

namespace Search

open AlgorithmX (Problem)

variable {α : Type} {earlier : List (List Nat)} {k depth : Nat} {s s' : Search}
  {C : Search → Prop}

/-- The counters of a search are right: after `k` runs, of which the last one may still be going on,
    and after the exact covers `earlier` of the runs before. -/
structure Accounts (earlier : List (List Nat)) (k : Nat) (s : Search) : Prop where
  nodes : s.stats.nodes = k + s.stats.backtracks + s.chosen.length
  solutions : s.stats.solutions = (earlier ++ s.found.toList).length
  depth : ∀ l ∈ earlier ++ s.found.toList, l.length ≤ s.stats.maxDepth

/-! ## Steps without account -/

/-- The two searches differ in the matrix and in the number of columns covered only. -/
def Beside (s s' : Search) : Prop :=
  ∃ matrix covers, s' = { s with matrix, stats := { s.stats with covers } }

/-- The computation does nothing but work on the matrix and count the columns covered, and it is
    not cut off. -/
def IsBeside (x : Run α) : Prop :=
  ∀ (C : Search → Prop) s, Yields C (fun _ s' => Beside s s') (x s)

theorem Beside.refl (s : Search) : Beside s s := ⟨s.matrix, s.stats.covers, rfl⟩

theorem Beside.trans {s'' : Search} (h : Beside s s') (h' : Beside s' s'') : Beside s s'' := by
  obtain ⟨_, _, rfl⟩ := h
  obtain ⟨matrix, covers, rfl⟩ := h'
  exact ⟨matrix, covers, rfl⟩

/-- The rows chosen are those chosen before. -/
private theorem Beside.chosen_eq (h : Beside s s') : s'.chosen = s.chosen := by
  obtain ⟨_, _, rfl⟩ := h
  rfl

/-- The accounts are as they were. -/
private theorem Beside.accounts (h : Beside s s') (hs : Accounts earlier k s) :
    Accounts earlier k s' := by
  obtain ⟨_, _, rfl⟩ := h
  exact ⟨hs.nodes, hs.solutions, hs.depth⟩

/-- Two such computations one after the other are one. -/
theorem IsBeside.bind {β : Type} {x : Run α} {f : α → Run β} (h : IsBeside x)
    (hf : ∀ a, IsBeside (f a)) : IsBeside (x >>= f) :=
  fun C s => (h C s).bind fun a s₁ h₁ =>
    (hf a C s₁).imp (fun _ h => h) fun _ _ h₂ => h₁.trans h₂

private theorem isBeside_pure (a : α) : IsBeside (pure a) := fun _ s => .refl s

private theorem isBeside_lift (x : Except Fault α) : IsBeside (lift x) := by
  cases x with
  | ok a => exact isBeside_pure a
  | error cause => exact fun _ _ => trivial

private theorem isBeside_ask (f : Matrix → Except Fault α) : IsBeside (ask f) :=
  fun C s => .step (x := get) rfl (isBeside_lift (f s.matrix) C s)

private theorem isBeside_onMatrix (f : Matrix → Except Fault Matrix) : IsBeside (onMatrix f) :=
  .bind (isBeside_ask f) fun m _ s => ⟨m, s.stats.covers, rfl⟩

private theorem isBeside_coverColumn (c : Nat) : IsBeside (coverColumn c) := by
  refine .bind (fun C s => ?_) fun _ => isBeside_onMatrix _
  rw [count_eq]
  cases hst : s.stats.cover with
  | error cause => trivial
  | ok stats =>
    refine ⟨s.matrix, s.stats.covers + 1, ?_⟩
    rw [Stats.cover_eq_add hst]
    simp [Stats.add_def]

private theorem isBeside_uncoverColumn (c : Nat) : IsBeside (uncoverColumn c) := isBeside_onMatrix _

private theorem isBeside_forM {f : Nat → Run PUnit} (hf : ∀ c, IsBeside (f c)) (cs : List Nat) :
    IsBeside (cs.forM f) := by
  induction cs with
  | nil => exact isBeside_pure _
  | cons c cs ih => exact .bind (hf c) fun _ => ih

/-- A step without account, followed by others. -/
private theorem IsBeside.yields {β : Type} {x : Run α} {f : α → Run β} {R : β → Search → Prop}
    (h : IsBeside x) (hf : ∀ a s', Beside s s' → Yields C R (f a s')) :
    Yields C R ((x >>= f) s) :=
  (h C s).bind hf

/-! ## The search below a node -/

/-- The accounts after the search below a node, and the rows chosen if it comes back. -/
def Back (earlier : List (List Nat)) (k : Nat) (s : Search) (o : Outcome) (s' : Search) : Prop :=
  Accounts earlier k s' ∧ (o = .exhausted → s'.chosen = s.chosen)

/-- A node is counted, and its depth is noted. -/
theorem enter_accounts (h : Accounts earlier k s) (depth : Nat) :
    Yields (Accounts earlier (k + 1))
      (fun _ s' => Accounts earlier (k + 1) s' ∧ s'.chosen = s.chosen ∧ depth ≤ s'.stats.maxDepth)
      (enter depth s) := by
  rw [enter_eq]
  cases hst : s.stats.enter depth with
  | error cause => trivial
  | ok stats =>
    obtain rfl := Stats.enter_eq_add hst
    let s₁ : Search := { s with stats := s.stats + { nodes := 1, maxDepth := depth } }
    have hnodes := h.nodes
    have hs : Accounts earlier (k + 1) s₁ := by
      -- one node more in the run that begins or below the row chosen last
      refine ⟨?_, h.solutions, fun l hl => le_max_of_le_left (h.depth l hl)⟩
      simp only [s₁, Stats.add_def]
      omega
    dsimp only
    cases Stats.exceeds _ s.maxNodes with
    | some limit => exact hs
    | none =>
      -- the links are checked, which counts nothing
      show Yields _ _ (checkedNode s₁)
      rw [checkedNode]
      split
      · exact ⟨hs, rfl, le_max_right ..⟩
      · trivial
      · trivial

/-- The rows chosen are kept, and the exact cover is counted. -/
private theorem record_accounts (h : Accounts earlier k s)
    (hdepth : s.chosen.length ≤ s.stats.maxDepth) :
    Yields C (Back earlier k s) (record s) := by
  rw [record]
  refine .step (x := get) rfl (.ask_bind fun rows hrows => .step (x := modify _) rfl ?_)
  have hlength : rows.length = s.chosen.length := by
    rw [length_of_mapM_eq_ok hrows, List.length_reverse]
  refine Yields.count_bind fun stats hst => .step (x := get) rfl ?_
  obtain rfl := Stats.solve_eq_add hst
  -- one exact cover more, of as many rows as are chosen
  refine ⟨⟨h.nodes, ?_, fun l hl => ?_⟩, fun _ => rfl⟩
  · have hsolutions := h.solutions
    simp only [List.length_append, Array.length_toList] at hsolutions
    simp only [Stats.add_def, List.length_append, Array.length_toList, Array.size_push]
    omega
  · simp only [Array.toList_push, ← List.append_assoc, List.mem_append, List.mem_singleton] at hl
    refine le_max_of_le_left ?_
    rcases hl with hl | rfl
    · exact h.depth l (List.mem_append.mpr hl)
    · exact hlength ▸ hdepth

/-- The search `below` keeps account at the given depth. -/
def KeepsAccount (earlier : List (List Nat)) (below : Run Outcome) (depth : Nat) : Prop :=
  ∀ k s, Accounts earlier k s → s.chosen.length = depth →
    Yields (Accounts earlier (k + 1)) (Back earlier (k + 1) s) (below s)

/-- A row that is tried is counted below it or is given up. -/
private theorem tryRows_accounts {below : Run Outcome}
    (hbelow : KeepsAccount earlier below (depth + 1)) (h : Accounts earlier (k + 1) s)
    (hdepth : s.chosen.length = depth) (head steps row : Nat) :
    Yields (Accounts earlier (k + 1)) (Back earlier (k + 1) s)
      (tryRows below head steps row s) := by
  -- induction on the entries that may still be met down the column
  induction steps generalizing s row with
  | zero => trivial
  | succ steps ih =>
    rw [tryRows]
    split
    · exact ⟨h, fun _ => rfl⟩
    have hnodes := h.nodes
    -- the row is chosen, but its node has not been counted yet
    let s₁ : Search := { s with chosen := row :: s.chosen }
    have h₁ : Accounts earlier k s₁ := by
      refine ⟨?_, h.solutions, h.depth⟩
      simp only [s₁, List.length_cons]
      omega
    have hpush : (modify fun s => { s with chosen := row :: s.chosen } : Run Unit) s =
      .ok () s₁ := rfl
    -- the columns that it shares are covered
    refine .step hpush ((isBeside_ask _).yields fun others s₂ h₂ => ?_)
    refine (isBeside_forM isBeside_coverColumn others).yields fun _ s₃ h₃ => ?_
    have h₃ := h₂.trans h₃
    have hdepth₃ : s₃.chosen.length = depth + 1 := by
      rw [h₃.chosen_eq, List.length_cons, hdepth]
    -- the search below counts its node
    refine (hbelow k s₃ (h₃.accounts h₁) hdepth₃).bind fun o s₄ hbelow₄ => ?_
    obtain ⟨h₄, hback⟩ := hbelow₄
    cases o with
    | stopped => exact ⟨h₄, fun ho => by cases ho⟩
    | exhausted =>
      have hchosen : s₄.chosen = row :: s.chosen := (hback rfl).trans h₃.chosen_eq
      -- the search comes back: the columns are uncovered, and the row is given up
      refine (isBeside_forM isBeside_uncoverColumn _).yields fun _ s₅ h₅ => ?_
      refine .step (x := modify _) rfl (.count_bind fun stats hst => ?_)
      obtain rfl := Stats.backtrack_eq_add hst
      refine (isBeside_ask _).yields fun entry s₆ h₆ => ?_
      have hchosen₆ : s₆.chosen = s.chosen := by
        rw [h₆.chosen_eq]
        show s₅.chosen.tail = s.chosen
        rw [h₅.chosen_eq, hchosen, List.tail_cons]
      -- the rows below it in the column are tried in the same place
      refine (ih (h₆.accounts ?_) (hchosen₆ ▸ hdepth) entry.down).imp (fun _ h => h) ?_
      · -- the choice is given up
        have hnodes₅ := (h₅.accounts h₄).nodes
        rw [h₅.chosen_eq, hchosen, List.length_cons] at hnodes₅
        refine ⟨?_, (h₅.accounts h₄).solutions,
          fun l hl => le_max_of_le_left ((h₅.accounts h₄).depth l hl)⟩
        show _ = k + 1 + (s₅.stats.backtracks + 1) + s₅.chosen.tail.length
        rw [h₅.chosen_eq, hchosen, List.tail_cons]
        exact hnodes₅.trans (by omega)
      · rintro o s' ⟨h', hback'⟩
        exact ⟨h', fun ho => (hback' ho).trans hchosen₆⟩

/-- The search below a node counts one node more than it gives up and leaves chosen. -/
theorem visit_accounts (fuel depth : Nat) : KeepsAccount earlier (visit fuel depth) depth := by
  -- induction on the fuel: one row is chosen for each level below
  induction fuel generalizing depth with
  | zero => exact fun _ _ _ _ => trivial
  | succ fuel ih =>
    intro k s h hdepth
    rw [visit]
    refine (enter_accounts h depth).bind fun _ s₁ henter => ?_
    obtain ⟨h₁, hchosen, hnoted⟩ := henter
    have hdepth₁ : s₁.chosen.length = depth := by rw [hchosen, hdepth]
    -- work on the matrix leaves the account to what follows
    have hsame : ∀ {r : EStateM.Result Halt Search Outcome} {s'}, Beside s₁ s' →
        Yields (Accounts earlier (k + 1)) (Back earlier (k + 1) s') r →
        Yields (Accounts earlier (k + 1)) (Back earlier (k + 1) s) r := by
      refine fun hs' hr => hr.imp (fun _ h => h) ?_
      rintro o s'' ⟨h'', hback⟩
      exact ⟨h'', fun ho => (hback ho).trans (hs'.chosen_eq.trans hchosen)⟩
    refine .step (x := get) rfl ?_
    -- if no column is left, the rows chosen are an exact cover
    split
    · exact hsame (.refl s₁) (record_accounts h₁ (hdepth₁.symm ▸ hnoted))
    -- a column is selected; without one, or with one that has no rows, the search comes back
    refine .step (x := get) rfl ((isBeside_ask _).yields fun column s₂ h₂ => ?_)
    cases column with
    | none => exact ⟨h₂.accounts h₁, fun _ => h₂.chosen_eq.trans hchosen⟩
    | some c =>
      refine (isBeside_ask _).yields fun size s₃ h₃ => ?_
      have h₃ := h₂.trans h₃
      dsimp only
      split
      · exact ⟨h₃.accounts h₁, fun _ => h₃.chosen_eq.trans hchosen⟩
      -- the column is covered and its rows are tried
      refine (isBeside_coverColumn c).yields fun _ s₄ h₄ => ?_
      refine (isBeside_lift _).yields fun head s₅ h₅ => ?_
      refine (isBeside_ask _).yields fun first s₆ h₆ => .step (x := get) rfl ?_
      have h₆ := ((h₃.trans h₄).trans h₅).trans h₆
      refine hsame h₆ ?_
      refine (tryRows_accounts (ih (depth + 1)) (h₆.accounts h₁) (h₆.chosen_eq ▸ hdepth₁)
        head _ _).bind fun o s₇ htried => ?_
      obtain ⟨h₇, hback⟩ := htried
      cases o with
      | stopped => exact ⟨h₇, fun ho => by cases ho⟩
      | exhausted =>
        -- all rows have been tried: the column is uncovered
        refine (isBeside_uncoverColumn c).yields fun _ s₈ h₈ => ?_
        exact ⟨h₈.accounts h₇, fun _ => h₈.chosen_eq.trans (hback rfl)⟩

/-! ## Runs -/

variable {m : Matrix} {t : Table} {rule : Selection} {maxNodes : Option Nat} {max bound : Nat}
  {cs : List Nat} {calls : List Request} {r : Request}

/-- A run goes no deeper than the columns allow, of which each row takes away at least `k`. -/
theorem Ready.solveUpTo_shallow (h : Ready m rule maxNodes s) (hm : m.Covered t cs)
    (hmax : 1 ≤ max) (hk : 0 < k) (hwide : (t.problem rule maxNodes max).Wide k (t.free cs))
    (hle : (t.active cs).length ≤ k * bound) (hs : s.stats.maxDepth ≤ bound) :
    Yields (fun s' => s'.stats.maxDepth ≤ bound) (fun _ s' => s'.stats.maxDepth ≤ bound)
      (Search.solveUpTo max s) := by
  -- the run is that of Algorithm X, which is known to be shallow
  have hagree := solveUpTo_agree (h.reached hm max) h.spent hmax
  have hshallow : Yields (Problem.Shallow bound) (fun _ => Problem.Shallow bound)
      ((t.problem rule maxNodes max).explore (t.active cs) (t.free cs) [] 0 { stats := s.stats }) :=
    Problem.explore_shallow _ [] hk Table.within_problem hwide (List.nodup_range.filter _)
      (by omega) hs
  rw [List.map_id'] at hagree
  generalize Search.solveUpTo max s = x at hagree ⊢
  generalize Problem.explore _ _ _ _ _ _ = y at hagree hshallow
  match x, y, hagree with
  | .ok _ s', .ok _ p, ⟨_, hstats, _⟩ =>
    show s'.stats.maxDepth ≤ bound
    rw [hstats]
    exact hshallow
  | .error e s', .error _ p, ⟨rfl, hp⟩ =>
    cases e with
    | nodeLimit limit =>
      show s'.stats.maxDepth ≤ bound
      rw [hp.stats]
      exact hshallow
    | _ => trivial

/-- The rows that are still chosen after a run: none if it has seen the whole tree, those of the
    last exact cover if it has stopped there, and otherwise those above the node where it was cut
    off. -/
inductive EndsAt (m : Matrix) (rule : Selection) (count : Nat) (s : Search) :
    Except Halt (List (List Nat)) → Nat → Prop
  | root {found : List (List Nat)} (h : found.length < count) : EndsAt m rule count s (.ok found) 0
  | cover {found : List (List Nat)} {last : List Nat} (h : found.length = count)
      (hlast : found.getLast? = some last) : EndsAt m rule count s (.ok found) last.length
  | cutOff {limit : Nat} {columns : List Nat}
      (h : m.Descended rule s.chosen.reverse columns s.matrix) :
      EndsAt m rule count s (.error (.nodeLimit limit)) s.chosen.length

/-- The exact covers of a result, if it has any. -/
def coversOf (result : Except Halt (List (List Nat))) : List (List Nat) := result.toOption.getD []

/-- What has been found is given away. -/
private theorem Accounts.give (h : Accounts earlier k s) (spent : Bool) :
    Accounts (earlier ++ s.found.toList) k { s with found := #[], spent } := by
  refine ⟨h.nodes, ?_, fun l hl => h.depth l ?_⟩
  · simpa only [Array.toList_empty, List.append_nil] using h.solutions
  · simpa only [Array.toList_empty, List.append_nil] using hl

/-- A run keeps account. -/
theorem Ready.solveUpTo_accounts (h : Ready m rule maxNodes s) (hm : m.Covered t [])
    (hmax : 1 ≤ max) (hs : Accounts earlier k s)
    (hover : (s.run (Search.solveUpTo max)).1 ≠ .error (.fault .overflow)) :
    let x := s.run (Search.solveUpTo max)
    -- four views of the one run: what its matrix is in the end, its accounts, how it may end, and
    -- whether the search can be asked again
    Accounts (earlier ++ coversOf x.1) (k + 1) x.2 ∧
      EndsAt m rule max x.2 x.1 x.2.chosen.length := by
  have hleaves := h.visitRoot_leaves hm max
  have hvisit : Yields (Accounts earlier (k + 1)) (Back earlier (k + 1) { s with wanted := max })
      (visitRoot { s with wanted := max }) :=
    visit_accounts wordBound 0 k _ ⟨hs.nodes, hs.solutions, hs.depth⟩ (by rw [h.chosen]; rfl)
  have hends := h.solveUpTo_ends hm hmax
  have hrun : ∀ found s', Search.solveUpTo max s = .ok found s' →
      Ready m rule maxNodes s' ∧ (1 ≤ max → found.length < max) ∨
        s'.spent = true ∧ 1 ≤ max ∧ found.length = max := fun _ _ => h.solveUpTo hm
  simp only [run, EStateM.run] at hover ⊢
  rw [solveUpTo_eq h.spent hmax] at hends hrun hover ⊢
  generalize visitRoot _ = x at hends hleaves hvisit hrun hover ⊢
  -- a run that comes back or stops gives its findings away, one that is cut off keeps them
  cases x with
  | ok o s₁ =>
    cases o with
    | exhausted =>
      have hchosen : s₁.chosen = [] := hleaves.chosen.trans h.chosen
      have hlt : s₁.found.toList.length < max := by
        rcases hrun _ _ rfl with ⟨-, hlt⟩ | ⟨hspent, -⟩
        · exact hlt hmax
        · -- a search that comes back is not spent
          exact absurd ((hleaves.spent.trans h.spent).symm.trans hspent) Bool.false_ne_true
      refine ⟨hvisit.1.give s₁.spent, ?_⟩
      dsimp only
      rw [hchosen]
      exact .root hlt
    | stopped =>
      obtain ⟨columns, -, -, last, hlast, hfinal⟩ := hleaves
      have hlength : s₁.found.toList.length = max := by
        rcases hrun _ _ rfl with ⟨h', -⟩ | ⟨-, -, hlength⟩
        · exact absurd h'.spent.symm Bool.false_ne_true
        · exact hlength
      refine ⟨hvisit.1.give true, ?_⟩
      dsimp only
      rw [← List.length_reverse, ← length_of_mapM_eq_ok hlast]
      exact .cover hlength hfinal
  | error halt s₁ =>
    rcases hends with ⟨limit, -, rfl⟩ | ⟨rfl, -⟩
    -- cut off by the limit
    · obtain ⟨columns, hstands⟩ := hleaves
      have hcut : Accounts earlier (k + 1) s₁ := hvisit
      refine ⟨?_, .cutOff hstands.path⟩
      rw [coversOf, Except.toOption, Option.getD_none, List.append_nil]
      exact ⟨hcut.nodes, hcut.solutions, hcut.depth⟩
    · exact absurd rfl hover

/-! ## Calls -/

/-- The answer of a run that keeps account is all it has found. -/
private theorem EndsAt.map_read {result : Except Halt (List (List Nat))} {d : Nat}
    (h : EndsAt m rule r.count s result d) : result.map r.read = result := by
  cases r with
  | upTo max => cases result <;> rfl
  | one =>
    cases h with
    | root h =>
      obtain rfl := List.length_eq_zero_iff.mp (Nat.lt_one_iff.mp h)
      rfl
    | cover h hlast =>
      obtain ⟨l, rfl⟩ := List.length_eq_one_iff.mp h
      rfl
    | cutOff h => rfl

/-- A call keeps account. -/
private theorem Ready.answer_accounts (h : Ready m rule maxNodes s) (hm : m.Covered t [])
    (hcount : 1 ≤ r.count) (hs : Accounts earlier k s)
    (hover : (s.run r.answer).1 ≠ .error (.fault .overflow)) :
    let x := s.run r.answer
    Accounts (earlier ++ coversOf x.1) (k + 1) x.2 ∧
      EndsAt m rule r.count x.2 x.1 x.2.chosen.length := by
  rw [run_answer] at hover ⊢
  obtain ⟨haccounts, hends⟩ := h.solveUpTo_accounts hm hcount hs fun herror => hover <| by
    rw [herror]
    rfl
  dsimp only
  rw [hends.map_read]
  exact ⟨haccounts, hends⟩

/-- A call goes no deeper than there are columns. -/
private theorem Ready.answer_shallow (h : Ready m rule maxNodes s) (hm : m.Covered t [])
    (hcount : 1 ≤ r.count) (hs : s.stats.maxDepth ≤ t.columnCount)
    (hover : (s.run r.answer).1 ≠ .error (.fault .overflow)) :
    (s.run r.answer).2.stats.maxDepth ≤ t.columnCount := by
  have hwide : (t.problem rule maxNodes r.count).Wide 1 (t.free []) :=
    fun _ _ hne => Finset.card_pos.mpr hne
  have hle : (t.active []).length ≤ 1 * t.columnCount := by
    rw [Table.active_nil, List.length_range, Nat.one_mul]
  have hshallow := h.solveUpTo_shallow hm hcount Nat.one_pos hwide hle hs
  have hends := h.solveUpTo_ends hm hcount
  rw [run_answer] at hover ⊢
  simp only [run, EStateM.run] at hover ⊢
  generalize Search.solveUpTo r.count s = x at hshallow hends hover ⊢
  cases x with
  -- an answer, the limit, or a full counter, which is excluded
  | ok _ _ => exact hshallow
  | error e s' =>
    rcases hends with ⟨limit, -, rfl⟩ | ⟨rfl, -⟩
    · exact hshallow
    · exact absurd rfl hover

/-- A search that is not spent after a call can be asked again, and no counter was full. -/
private theorem Ready.answer_ready (h : Ready m rule maxNodes s) (hm : m.Covered t cs)
    (hspent : (s.run r.answer).2.spent = false) :
    Ready m rule maxNodes (s.run r.answer).2 ∧
      (s.run r.answer).1 ≠ .error (.fault .overflow) := by
  cases hrun : s.run r.answer with
  | mk result s' =>
    rw [hrun] at hspent
    cases result with
    | error e => exact nomatch hspent.symm.trans (spent_of_error hrun)
    | ok found =>
      obtain ⟨max, found', hfound⟩ := Request.of_answer_eq_ok (run_eq_ok_iff.mp hrun)
      rcases h.solveUpTo hm hfound with ⟨h', -⟩ | ⟨hspent', -⟩
      · exact ⟨h', nofun⟩
      · exact nomatch hspent.symm.trans hspent'

/-- The exact covers given in answer to some calls, one after the other. -/
def given (s : Search) : List Request → List (List Nat)
  | [] => []
  | r :: calls => coversOf (s.run r.answer).1 ++ (s.run r.answer).2.given calls

/-- The exact covers that have been found in some calls: those given in answer, and those of a call
    that was cut off. -/
def recorded (s : Search) (calls : List Request) : List (List Nat) :=
  s.given calls ++ (s.after calls).found.toList

private theorem given_append (s : Search) (calls later : List Request) :
    s.given (calls ++ later) = s.given calls ++ (s.after calls).given later := by
  induction calls generalizing s with
  | nil => rfl
  | cons r calls ih => rw [List.cons_append, given, given, ih, List.append_assoc, after_cons]

private theorem after_append (s : Search) (calls later : List Request) :
    s.after (calls ++ later) = (s.after calls).after later :=
  List.foldl_append

/-- Calls that leave the search unspent keep account. -/
private theorem Ready.after_accounts (h : Ready m rule maxNodes s) (hm : m.Covered t [])
    (hcounts : ∀ r ∈ calls, 1 ≤ r.count) (hs : Accounts earlier k s)
    (hdepth : s.stats.maxDepth ≤ t.columnCount) (hspent : (s.after calls).spent = false) :
    Ready m rule maxNodes (s.after calls) ∧
      Accounts (earlier ++ s.given calls) (k + calls.length) (s.after calls) ∧
      (s.after calls).stats.maxDepth ≤ t.columnCount := by
  -- induction on the calls; each leaves a search that can be asked again
  induction calls generalizing s earlier k with
  | nil =>
    rw [given, List.append_nil]
    exact ⟨h, hs, hdepth⟩
  | cons r calls ih =>
    rw [List.forall_mem_cons] at hcounts
    rw [after_cons] at hspent ⊢
    -- a spent search would be spent at the end
    have hfirst : (s.run r.answer).2.spent = false := by
      cases hfirst : (s.run r.answer).2.spent with
      | false => rfl
      | true =>
        rw [after_of_spent hfirst] at hspent
        exact hfirst.symm.trans hspent
    obtain ⟨h', hover⟩ := h.answer_ready hm hfirst
    obtain ⟨hs', -⟩ := h.answer_accounts hm hcounts.1 hs hover
    have hdepth' := h.answer_shallow hm hcounts.1 hdepth hover
    rw [given, ← List.append_assoc, List.length_cons, Nat.add_comm calls.length, ← Nat.add_assoc]
    exact ih h' hcounts.2 hs' hdepth' hspent

/-- The counters of the search `start` account for some calls and a last one. -/
structure Accounted (start : Search) (calls : List Request) (r : Request) : Prop where
  nodes : ∃ chosen, EndsAt start.matrix start.selection r.count (start.after (calls ++ [r]))
      ((start.after calls).run r.answer).1 chosen ∧
    (start.after (calls ++ [r])).stats.nodes =
      (calls ++ [r]).length + (start.after (calls ++ [r])).stats.backtracks + chosen
  solutions : (start.after (calls ++ [r])).stats.solutions =
    (start.recorded (calls ++ [r])).length
  depth : ∀ l ∈ start.recorded (calls ++ [r]),
    l.length ≤ (start.after (calls ++ [r])).stats.maxDepth
  active : ∃ active, start.matrix.activeColumns = .ok active ∧
    (start.after (calls ++ [r])).stats.maxDepth ≤ active.length

/-- Calls that are answered or cut off are accounted for. -/
theorem Ready.accounted {start : Search} (h : Ready m rule maxNodes start) (hm : m.Covered t [])
    (hstats : start.stats = {}) (hcounts : ∀ r' ∈ calls ++ [r], 1 ≤ r'.count)
    (hasked : ((start.after calls).run r.answer).1 ≠ .error .spent)
    (hover : ((start.after calls).run r.answer).1 ≠ .error (.fault .overflow)) :
    Accounted start calls r := by
  rw [List.forall_mem_append, List.forall_mem_singleton] at hcounts
  -- the last call is not refused, so the search is not spent before it
  have hspent : (start.after calls).spent = false := by
    cases hspent : (start.after calls).spent with
    | false => rfl
    | true => exact absurd (congrArg Prod.fst (run_of_spent hspent r)) hasked
  -- before the first call there is nothing to account for
  have hnew : Accounts [] 0 start := by
    refine ⟨?_, ?_, ?_⟩ <;> simp [h.chosen, h.found, hstats]
  obtain ⟨h', hs, hdepth⟩ := h.after_accounts hm hcounts.1 hnew
    (by simp [hstats]) hspent
  obtain ⟨haccounts, hends⟩ := h'.answer_accounts hm hcounts.2 hs hover
  -- what the last call adds
  have hlast : start.after (calls ++ [r]) = ((start.after calls).run r.answer).2 :=
    after_append start calls [r]
  have hrecorded : start.recorded (calls ++ [r]) = start.given calls ++
      coversOf ((start.after calls).run r.answer).1 ++
      ((start.after calls).run r.answer).2.found.toList := by
    rw [recorded, given_append, hlast, given, given, List.append_nil]
  rw [List.nil_append] at haccounts
  refine ⟨⟨((start.after calls).run r.answer).2.chosen.length, ?_, ?_⟩, ?_, ?_, t.active [], ?_, ?_⟩
  · rw [hlast, h.matrix, h.selection]
    exact hends
  · rw [hlast, haccounts.nodes, List.length_append, List.length_singleton, Nat.zero_add]
  · rw [hlast, hrecorded]
    exact haccounts.solutions
  · rw [hlast, hrecorded]
    exact haccounts.depth
  · rw [h.matrix]
    exact hm.shows.activeColumns_eq
  · rw [hlast, Table.active_nil, List.length_range]
    exact h'.answer_shallow hm hcounts.2 hdepth hover

end Search
end ExactCover
