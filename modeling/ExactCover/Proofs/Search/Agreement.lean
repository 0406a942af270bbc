import ExactCover.Proofs.AlgorithmX.Basic
import ExactCover.Proofs.Matrix.Check

/-!
# Steps of the search and steps of Algorithm X

Two computations agree if they fail for the same reason or end with related states. The steps of
the search over a matrix that shows a table agree with the steps of Algorithm X, and so do
sequences of steps that agree.
-/

namespace ExactCover.Search

open AlgorithmX (Trial Progress)

variable {ρ α β γ δ : Type} {label : ρ → Nat} {s s' s'' : Search} {p p' : Progress ρ} {m' : Matrix}

/-- The search and Algorithm X have counted the same and found the same, where `label` is the
    identifier of a row. -/
structure Matches (label : ρ → Nat) (s : Search) (p : Progress ρ) : Prop where
  stats : s.stats = p.stats
  found : s.found.toList = p.found.map (·.map label)

/-- The search differs from what it was in its counters and its findings only. -/
structure Restored (s s' : Search) : Prop where
  matrix : s'.matrix = s.matrix
  selection : s'.selection = s.selection
  maxNodes : s'.maxNodes = s.maxNodes
  chosen : s'.chosen = s.chosen
  wanted : s'.wanted = s.wanted
  spent : s'.spent = s.spent

/-- Both computations fail for the same reason, or both end in a way that `Q` relates. -/
def Agree (label : ρ → Nat) (Q : α → Search → β → Progress ρ → Prop) :
    EStateM.Result Halt Search α → EStateM.Result Halt (Progress ρ) β → Prop
  | .ok a s, .ok b p => Q a s b p
  | .error e s, .error e' p => e = e' ∧ Matches label s p
  | _, _ => False

theorem Restored.refl (s : Search) : Restored s s := ⟨rfl, rfl, rfl, rfl, rfl, rfl⟩

theorem Restored.trans (h : Restored s s') (h' : Restored s' s'') : Restored s s'' where
  matrix := h'.matrix.trans h.matrix
  selection := h'.selection.trans h.selection
  maxNodes := h'.maxNodes.trans h.maxNodes
  chosen := h'.chosen.trans h.chosen
  wanted := h'.wanted.trans h.wanted
  spent := h'.spent.trans h.spent

/-- The same matrix may be written before and after. -/
theorem Restored.onMatrix (h : Restored s s') (m : Matrix) :
    Restored { s with matrix := m } { s' with matrix := m } :=
  ⟨rfl, h.selection, h.maxNodes, h.chosen, h.wanted, h.spent⟩

/-- A choice is taken back: the matrix is as before, and the entry chosen is forgotten. -/
theorem Restored.takeBack {id : Nat}
    (h : Restored { s with matrix := m', chosen := id :: s.chosen } s')
    (h' : Restored { s' with matrix := s.matrix, chosen := s'.chosen.tail } s'') :
    Restored s s'' where
  matrix := h'.matrix
  selection := h'.selection.trans h.selection
  maxNodes := h'.maxNodes.trans h.maxNodes
  chosen := h'.chosen.trans (congrArg List.tail h.chosen)
  wanted := h'.wanted.trans h.wanted
  spent := h'.spent.trans h.spent

/-! ## Sequences of steps -/

/-- A pair of steps that agree, followed by computations that agree. -/
theorem Agree.bind {Q : α → Search → β → Progress ρ → Prop}
    {Q' : γ → Search → δ → Progress ρ → Prop} {x : Run α} {y : Trial ρ β} {f : α → Run γ}
    {g : β → Trial ρ δ} (h : Agree label Q (x s) (y p))
    (hf : ∀ a s' b p', Q a s' b p' → Agree label Q' (f a s') (g b p')) :
    Agree label Q' ((x >>= f) s) ((y >>= g) p) := by
  -- two failures stay as they are, and two successes go on with `hf`
  show Agree label Q' (EStateM.bind x f s) (EStateM.bind y g p)
  unfold EStateM.bind
  revert h
  cases x s <;> cases y p <;> intro h
  · exact hf _ _ _ _ h
  · exact False.elim h
  · exact False.elim h
  · exact h

/-- A step of the search alone. -/
theorem Agree.step {Q : γ → Search → β → Progress ρ → Prop} {x : Run α} {f : α → Run γ} {a : α}
    {r : EStateM.Result Halt (Progress ρ) β} (hx : x s = .ok a s')
    (h : Agree label Q (f a s') r) : Agree label Q ((x >>= f) s) r := by
  rwa [bind_of_ok hx]

/-- A step of Algorithm X alone. -/
theorem Agree.step_right {Q : γ → Search → δ → Progress ρ → Prop} {y : Trial ρ β}
    {g : β → Trial ρ δ} {b : β} {r : EStateM.Result Halt Search γ} (hy : y p = .ok b p')
    (h : Agree label Q r (g b p')) : Agree label Q r ((y >>= g) p) := by
  rwa [bind_of_ok hy]

/-- Agreement may be weakened. -/
theorem Agree.imp {Q Q' : α → Search → β → Progress ρ → Prop}
    {x : EStateM.Result Halt Search α} {y : EStateM.Result Halt (Progress ρ) β}
    (h : Agree label Q x y) (hQ : ∀ a s b p, Q a s b p → Q' a s b p) : Agree label Q' x y := by
  cases x <;> cases y
  · exact hQ _ _ _ _ h
  · exact h
  · exact h
  · exact h

/-- A question that the matrix answers leaves the search as it is. -/
theorem ask_eq {f : Matrix → Except Fault α} {a : α} (h : f s.matrix = .ok a) :
    ask f s = .ok a s := by
  show lift (f s.matrix) s = _
  rw [h]
  rfl

/-- A change of the matrix changes nothing else. -/
theorem onMatrix_eq {f : Matrix → Except Fault Matrix} (h : f s.matrix = .ok m') :
    onMatrix f s = .ok () { s with matrix := m' } := by
  rw [onMatrix, bind_of_ok (ask_eq h)]
  rfl

/-! ## Counting -/

/-- Counting changes the counters or fails. -/
theorem count_eq (f : Stats → Except Fault Stats) (s : Search) :
    count f s = match f s.stats with
      | .ok stats => .ok () { s with stats }
      | .error cause => .error (.fault cause) s := by
  show (lift (f s.stats) >>= fun stats => modify fun s => { s with stats }) s = _
  cases f s.stats <;> rfl

/-- The outcome of checking the links at a node. -/
def checkedNode (s : Search) : EStateM.Result Halt Search Unit :=
  match s.matrix.check with
  | .ok () => .ok () s
  | .error (.fault cause) => .error (.fault cause) s
  | .error error => .error (.broken error) s

/-- A node is counted, then the limit is looked at, and then the links. -/
theorem enter_eq (depth : Nat) (s : Search) :
    enter depth s = match s.stats.enter depth with
      | .error cause => .error (.fault cause) s
      | .ok stats => match stats.exceeds s.maxNodes with
        | some limit => .error (.nodeLimit limit) { s with stats }
        | none => checkedNode { s with stats } := by
  -- a full counter, the limit met or not, and then the links in order or not
  rw [enter]
  cases hst : s.stats.enter depth with
  | error cause =>
    have hcount : count (·.enter depth) s = .error (.fault cause) s := by rw [count_eq, hst]
    exact bind_of_error hcount
  | ok stats =>
    have hcount : count (·.enter depth) s = .ok () { s with stats } := by rw [count_eq, hst]
    rw [bind_of_ok hcount, bind_of_ok (x := get) rfl, bind_of_ok (x := get) rfl]
    dsimp only
    cases stats.exceeds s.maxNodes with
    | some limit => rfl
    | none =>
      show (match s.matrix.check with
        | .ok () => pure ()
        | .error (.fault cause) => throw (.fault cause)
        | .error error => throw (.broken error) : Run Unit) { s with stats } =
          checkedNode { s with stats }
      rw [checkedNode]
      cases s.matrix.check with
      | ok _ => rfl
      | error error => cases error <;> rfl

/-- Both count the same, or neither can. -/
theorem count_agree (h : Matches label s p) (f : Stats → Except Fault Stats) :
    Agree label (fun _ s' _ p' => Matches label s' p' ∧ Restored s s') (count f s)
      (AlgorithmX.count f p) := by
  rw [count_eq, h.stats]
  cases hst : f p.stats with
  | ok stats =>
    rw [AlgorithmX.count_of_ok hst]
    exact ⟨⟨rfl, h.found⟩, ⟨rfl, rfl, rfl, rfl, rfl, rfl⟩⟩
  | error cause =>
    rw [AlgorithmX.count_of_error hst]
    exact ⟨rfl, h⟩

/-- Both enter a node, or both are stopped there by the limit. -/
theorem enter_agree {prob : AlgorithmX.Problem ρ} (h : Matches label s p)
    (hlimit : s.maxNodes = prob.maxNodes) (hcheck : s.matrix.check = .ok ()) (depth : Nat) :
    Agree label (fun _ s' _ p' => Matches label s' p' ∧ Restored s s') (enter depth s)
      (prob.enter depth p) := by
  -- the node is counted by both
  rw [enter, AlgorithmX.Problem.enter_eq]
  apply (count_agree h _).bind
  intro _ s' _ p' hq
  obtain ⟨h', hs'⟩ := hq
  refine Agree.step (x := get) rfl (Agree.step (x := get) rfl (Agree.step_right (y := get) rfl ?_))
  have hmax : s'.maxNodes = prob.maxNodes := hs'.maxNodes.trans hlimit
  -- the limit is met by both or by none, and the links are found in order
  simp only [h'.stats, hmax]
  cases p'.stats.exceeds prob.maxNodes with
  | some limit => exact ⟨rfl, h'⟩
  | none =>
    apply Agree.step (x := get) rfl
    rw [hs'.matrix, hcheck]
    exact ⟨h', hs'⟩

/-- Both keep the rows chosen, and both go on or stop. -/
theorem record_agree {prob : AlgorithmX.Problem ρ} {chosen : List ρ} (h : Matches label s p)
    (hwanted : s.wanted = prob.wanted)
    (hchosen : s.chosen.reverse.mapM s.matrix.rowOf = .ok (chosen.map label)) :
    Agree label (fun o s' o' p' => o = o' ∧ Matches label s' p' ∧ Restored s s') (record s)
      (prob.emit chosen p) := by
  -- the rows chosen are read and kept
  rw [record, AlgorithmX.Problem.emit_eq]
  apply Agree.step (x := get) rfl
  apply Agree.step (ask_eq hchosen)
  refine Agree.step (x := modify _) rfl (Agree.step_right (y := modify _) rfl ?_)
  have hpush : Matches label { s with found := s.found.push (chosen.map label) }
      { p with found := p.found ++ [chosen] } := by
    refine ⟨h.stats, ?_⟩
    rw [Array.toList_push, h.found, List.map_append, List.map_singleton]
  -- the exact cover is counted by both
  apply (count_agree hpush _).bind
  intro _ s' _ p' hq
  obtain ⟨h', hs'⟩ := hq
  refine Agree.step (x := get) rfl (Agree.step_right (y := get) rfl ?_)
  refine ⟨?_, h', ⟨hs'.matrix, hs'.selection, hs'.maxNodes, hs'.chosen, hs'.wanted, hs'.spent⟩⟩
  -- both stop when as many have been found as were asked for
  have hw : s'.wanted = prob.wanted := hs'.wanted.trans hwanted
  have hsize : s'.found.size = p'.found.length := by
    rw [← Array.length_toList, h'.found, List.length_map]
  rw [hw, hsize]

/-! ## Covering -/

/-- An active column is covered while Algorithm X only counts it. -/
theorem coverColumn_agree {c : Nat} (h : Matches label s p) (hcover : s.matrix.cover c = .ok m') :
    Agree label (fun _ s' _ p' => Matches label s' p' ∧ Restored { s with matrix := m' } s')
      (coverColumn c s) (AlgorithmX.count (·.cover) p) := by
  -- it is counted by both before the links are changed
  rw [coverColumn, ← bind_pure (AlgorithmX.count _)]
  apply (count_agree h _).bind
  intro _ s' _ p' hq
  obtain ⟨h', hs'⟩ := hq
  rw [onMatrix_eq (hs'.matrix ▸ hcover)]
  exact ⟨⟨h'.stats, h'.found⟩, hs'.onMatrix m'⟩

/-- Columns are covered one after the other while Algorithm X only counts them. -/
theorem coverColumns_agree {ds : List Nat} (h : Matches label s p)
    (hcover : ds.foldlM Matrix.cover s.matrix = .ok m') :
    Agree label (fun _ s' _ p' => Matches label s' p' ∧ Restored { s with matrix := m' } s')
      (ds.forM coverColumn s) (AlgorithmX.countCovers ds.length p) := by
  -- induction on the columns, each of which is covered in the matrix that the others have left
  induction ds generalizing s p with
  | nil =>
    cases hcover
    exact ⟨h, .refl _⟩
  | cons d ds ih =>
    rw [List.foldlM_cons] at hcover
    obtain ⟨m, hd, hcover⟩ := bind_eq_ok.mp hcover
    rw [List.length_cons, AlgorithmX.countCovers_succ]
    apply (coverColumn_agree h hd).bind
    intro _ s' _ p' hq
    obtain ⟨h', hs'⟩ := hq
    have hm : s'.matrix = m := hs'.matrix
    apply (ih h' (hm ▸ hcover)).imp
    intro _ s'' _ p'' hq
    obtain ⟨h'', hs''⟩ := hq
    exact ⟨h'', (hs'.onMatrix m').trans hs''⟩

/-- Columns are uncovered one after the other, which counts nothing. -/
theorem uncoverColumns_eq {ds : List Nat}
    (huncover : ds.foldlM Matrix.uncover s.matrix = .ok m') :
    ds.forM uncoverColumn s = .ok () { s with matrix := m' } := by
  induction ds generalizing s with
  | nil =>
    cases huncover
    rfl
  | cons d ds ih =>
    rw [List.foldlM_cons] at huncover
    obtain ⟨m, hd, huncover⟩ := bind_eq_ok.mp huncover
    have hstep : uncoverColumn d s = .ok () { s with matrix := m } := onMatrix_eq hd
    exact (bind_of_ok hstep).trans (ih huncover)

end ExactCover.Search
