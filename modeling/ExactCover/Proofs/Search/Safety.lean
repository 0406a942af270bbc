import ExactCover.Proofs.Search.Guarded

/-!
# A search never breaks its matrix

Whatever a search has been asked before, a call does what the guarded search does: at every node
the links are in order, only active columns are covered and no operation on the matrix fails. So a
call gives an answer, or it is cut off by the limit of nodes, or the search was spent, or a counter
is full. However it ends, the links of the matrix are in order afterwards.

## Key results

- `Intact.answer`: one call
- `Intact.after`: any number of calls
- `guarded_calls`: calls of a search over any matrix that can be built
-/

namespace ExactCover.Search

variable {α β : Type} {t : Table} {m : Matrix} {selection : Selection} {maxNodes : Option Nat}
  {s s' : Search} {cs : List Nat} {max : Nat}

/-! ## Runs -/

namespace Guarded

/-- A search that fails is spent, with guards and without. -/
private theorem tryCatch_sound {Q : α → β → Search → Prop} {x : Guarded α} {y : Run β}
    (h : Sound t Q (x s) (y s)) :
    Sound t Q ((tryCatch x fun stop => do plain spend; throw stop) s)
      ((tryCatch y fun halt => do spend; throw halt) s) := by
  show Sound t Q (EStateM.tryCatch x _ s) (EStateM.tryCatch y _ s)
  unfold EStateM.tryCatch
  generalize x s = r at h ⊢
  generalize y s = r' at h ⊢
  cases h with
  | ok h => exact .ok h
  | error h => exact .error (by exact h)

/-- What two computations give is the same, and the matrix is left with some columns covered. -/
def Same (t : Table) (a b : α) (s : Search) : Prop := a = b ∧ ∃ cs, s.matrix.Covered t cs

/-- A run of a search that can be asked. -/
private theorem solveUpTo_sound (h : Ready m selection maxNodes s) (hm : m.Covered t cs)
    (max : Nat) :
    Sound t (Same t) (solveUpTo max s) (Search.solveUpTo max s) := by
  have hcovered : s.matrix.Covered t cs := h.matrix ▸ hm
  have hspent : ¬ s.spent = true := by simp [h.spent]
  rw [solveUpTo, Search.solveUpTo]
  refine .step (x := get) rfl (.step_right (y := get) rfl ?_)
  rw [if_neg hspent, if_neg hspent]
  -- nothing is done for a request of none
  by_cases hmax : max = 0
  · rw [if_pos hmax, if_pos hmax]
    exact .ok ⟨rfl, cs, hcovered⟩
  · rw [if_neg hmax, if_neg hmax]
    have hpoised : Poised t { s with wanted := max } cs := ⟨hcovered, by simp [h.chosen]⟩
    -- otherwise the tree is searched, from which the two come back in the same way
    have hvisit := visit_sound hpoised (t.length_active_lt_wordBound cs) 0
    refine .modify_bind ((tryCatch_sound hvisit).bind ?_)
    rintro o _ s' ⟨rfl, hleft, -⟩
    cases o <;> exact .ok ⟨rfl, hleft⟩

/-- A search that is spent refuses to run. -/
private theorem solveUpTo_sound_of_spent (hspent : s.spent = true)
    (hcovered : s.matrix.Covered t cs) (max : Nat) :
    Sound t (Same t) (solveUpTo max s) (Search.solveUpTo max s) := by
  rw [solveUpTo_of_spent hspent, solveUpTo, bind_of_ok (x := get) rfl, if_pos hspent]
  exact .error hcovered

/-- The answer to a request is what a run has found. -/
private theorem answer_sound (r : Request)
    (h : Sound t (Same t) (solveUpTo r.count s) (Search.solveUpTo r.count s)) :
    Sound t (Same t) (answer r s) (Request.answer r s) := by
  cases r with
  | upTo max => exact h
  | one =>
    rw [Request.answer_one]
    refine Sound.bind (Q := Same t) h ?_
    rintro found _ s' ⟨rfl, hleft⟩
    exact .ok ⟨rfl, hleft⟩

/-- Sound computations that give the same differ in nothing but the kind of their failures. -/
private theorem Sound.eq_plain {x : Guarded α} {y : Run α} (h : Sound t (Same t) (x s) (y s)) :
    x s = plain y s := by
  rw [plain]
  generalize x s = r at h ⊢
  generalize y s = r' at h ⊢
  cases h with
  | ok h =>
    obtain ⟨rfl, -⟩ := h
    rfl
  | error h => rfl

/-- However it ends, the computation leaves some columns covered. -/
private theorem Sound.exists_covered {x : EStateM.Result Stop Search α} {y : Run α}
    (h : Sound t (Same t) x (y s)) : ∃ cs, (s.run y).2.matrix.Covered t cs := by
  rw [run, EStateM.run]
  generalize y s = r' at h ⊢
  cases h with
  | ok h => exact h.2
  | error h => exact ⟨_, h⟩

end Guarded

/-! ## Calls -/

/-- The search can be asked for exact covers of `m`, or it is spent. In either case its matrix has
    some columns covered one after the other, and nothing else. -/
structure Intact (t : Table) (m : Matrix) (selection : Selection) (maxNodes : Option Nat)
    (s : Search) : Prop where
  ready : Ready m selection maxNodes s ∨ s.spent = true
  covered : ∃ cs, s.matrix.Covered t cs

/-- The call gives an answer, or it is ended by the limit of nodes or a full counter, or it is
    refused since the search is spent. -/
def Ends (maxNodes : Option Nat) (s : Search) : Except Halt α × Search → Prop
  | (.ok _, _) => s.spent = false
  | (.error (.nodeLimit limit), _) => s.spent = false ∧ maxNodes = some limit
  | (.error (.fault .overflow), s') => s.spent = false ∧ s'.stats.Full
  | (.error .spent, _) => s.spent = true
  | _ => False

variable {r : Request}

/-- A call does what the guarded call does. However it ends, nothing but some columns is covered. -/
private theorem Intact.answer_sound (h : Intact t m selection maxNodes s) (hm : m.Covered t cs)
    (r : Request) :
    Guarded.Sound t (Guarded.Same t) (Guarded.answer r s) (r.answer s) := by
  refine Guarded.answer_sound r ?_
  rcases h.ready with hready | hspent
  · exact Guarded.solveUpTo_sound hready hm r.count
  · obtain ⟨cs, hcs⟩ := h.covered
    exact Guarded.solveUpTo_sound_of_spent hspent hcs r.count

/-- A call ends for one of the known reasons, and leaves the search ready or spent. -/
private theorem answer_ends (h : Ready m selection maxNodes s ∨ s.spent = true)
    (hm : m.Covered t cs) (r : Request) :
    Ends maxNodes s (s.run r.answer) ∧
      (Ready m selection maxNodes (s.run r.answer).2 ∨ (s.run r.answer).2.spent = true) := by
  rw [run_answer]
  simp only [run, EStateM.run]
  rcases h with h | hspent
  · rcases Nat.eq_zero_or_pos r.count with hzero | hpos
    · -- none are asked for, so the tree is not entered
      rw [hzero, solveUpTo_zero h.spent]
      exact ⟨h.spent, .inl h⟩
    · have hends := h.solveUpTo_ends hm hpos
      cases hx : Search.solveUpTo r.count s with
      | ok found s' =>
        exact ⟨h.spent, (h.solveUpTo hm hx).imp And.left And.left⟩
      -- the run fails at the limit or at a full counter, and either way the search is spent
      | error e s' =>
        rw [hx] at hends
        refine ⟨?_, .inr (solveUpTo_spent hx)⟩
        rcases hends with ⟨limit, hlimit, rfl⟩ | ⟨rfl, hfull⟩
        · exact ⟨h.spent, hlimit⟩
        · exact ⟨h.spent, hfull⟩
  · rw [solveUpTo_of_spent hspent]
    exact ⟨hspent, .inr hspent⟩

/-- One call. -/
theorem Intact.answer (h : Intact t m selection maxNodes s) (hm : m.Covered t cs) (r : Request) :
    Intact t m selection maxNodes (s.run r.answer).2 where
  ready := (answer_ends h.ready hm r).2
  covered := (h.answer_sound hm r).exists_covered

/-- Any number of calls. -/
theorem Intact.after (h : Intact t m selection maxNodes s) (hm : m.Covered t cs)
    (calls : List Request) : Intact t m selection maxNodes (s.after calls) := by
  -- induction on the calls, each of which leaves an intact search
  induction calls generalizing s with
  | nil => exact h
  | cons r calls ih => exact ih (h.answer hm r)

/-- Strictly nested covers and uncovers of a matrix built by adding rows give a matrix on which a
    search may be called any number of times. After each call the links are in order, and each
    call does what the guarded one does: the links are in order at every node that is entered,
    only active columns are covered, and no operation on the links, the sizes or the rows of the
    matrix fails. A call gives an answer, or it is cut off by the limit of nodes, or a counter is
    full, or it is refused by a search that is spent. -/
theorem guarded_calls (selection : Selection) (maxNodes : Option Nat) {n : Nat}
    {rows : List (Nat × List Nat)} {xs : List Move} {m₀ m : Matrix}
    (hcreate : Matrix.create n = .ok m₀)
    (hadd : rows.foldlM (fun m r => m.addRow r.1 r.2) m₀ = .ok m) (hnested : m.Nested [] xs) :
    ∃ m', xs.foldlM Matrix.move m = .ok m' ∧ ∀ (calls : List Request) (r : Request),
      let s := after { matrix := m', selection, maxNodes } calls
      s.matrix.check = .ok () ∧ Guarded.answer r s = Guarded.plain r.answer s ∧
        Ends maxNodes s (s.run r.answer) := by
  obtain ⟨t, -, -, ht⟩ := Matrix.covered_of_create hcreate hadd
  have hstart : Matrix.Standing m t [] m := ⟨ht, rfl, ht⟩
  obtain ⟨m', hm', hstanding⟩ := hstart.moves hnested
  refine ⟨m', hm', fun calls r => ?_⟩
  -- whatever calls come first, they leave a search as the one asked here
  have hnew : Intact t m' selection maxNodes { matrix := m', selection, maxNodes } :=
    ⟨.inl (ready_new m' selection maxNodes), _, hstanding.covered⟩
  have h := hnew.after hstanding.covered calls
  obtain ⟨cs, hcs⟩ := h.covered
  exact ⟨hcs.shows.check_eq, (h.answer_sound hstanding.covered r).eq_plain,
    (answer_ends h.ready hstanding.covered r).1⟩

/-- One column has been covered, another one has been covered and uncovered below it, and a row
    with two columns is chosen in the first call and in the second one, which stops there. -/
theorem guarded_calls_below_covered :
    ∃ m₀ m m' : Matrix, Matrix.create 4 = .ok m₀ ∧
      [(7, [0, 1]), (8, [2]), (7, [0]), (9, [1, 2]), (6, [2, 3]), (5, [])].foldlM
        (fun (m : Matrix) r => m.addRow r.1 r.2) m₀ = .ok m ∧
      m.Nested [] [.cover 3, .cover 0, .uncover 0] ∧
      [Move.cover 3, .cover 0, .uncover 0].foldlM Matrix.move m = .ok m' ∧
      let s := after { matrix := m', selection := .minimumSize, maxNodes := some 50 } [.upTo 9]
      (s.run Request.one.answer).1 = .ok [[7, 8]] ∧ s.matrix.check = .ok () ∧
        Guarded.answer .one s = Guarded.plain Request.one.answer s ∧
        Ends (some 50) s (s.run Request.one.answer) := by
  have hrun : ([(7, [0, 1]), (8, [2]), (7, [0]), (9, [1, 2]), (6, [2, 3]), (5, [])].foldlM
      (fun (m : Matrix) r => m.addRow r.1 r.2) (Matrix.empty 4)).map (fun m =>
        (decide (m.Nested [] [.cover 3, .cover 0, .uncover 0]),
          ([Move.cover 3, .cover 0, .uncover 0].foldlM Matrix.move m).map fun m' =>
            ((after { matrix := m', selection := .minimumSize, maxNodes := some 50 }
              [.upTo 9]).run Request.one.answer).1)) =
      .ok (true, .ok (.ok [[7, 8]])) := by
    decide +kernel
  obtain ⟨m, hadd, hm⟩ := exists_of_map_eq_ok hrun
  obtain ⟨hnested, hm⟩ := Prod.mk.inj hm
  have hnested := of_decide_eq_true hnested
  obtain ⟨m₁, hm₁, hfirst⟩ := exists_of_map_eq_ok hm
  obtain ⟨m', hm', hcalls⟩ :=
    guarded_calls .minimumSize (some 50) (n := 4) rfl hadd hnested
  cases hm₁.symm.trans hm'
  exact ⟨_, m, m₁, rfl, hadd, hnested, hm₁, hfirst, hcalls [.upTo 9] .one⟩

end ExactCover.Search
