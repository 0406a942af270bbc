import ExactCover.Matrix.Check
import ExactCover.Proofs.Matrix.Ring

/-!
# The check of the links

Where the links to the right and down are known to lead around, the check comes to its end. Either
each step that it takes is undone by the step back and the size kept for a column is the number of
rows met in it, or what it finds is a step or a size of which this is not so. A matrix that shows
a table passes the check: every ring that is followed is a ring.

## Key results

- `checkRightFrom_finds`, `checkDownFrom_finds`: what is found on the way around
- `Laid.checkActive_finds`: what is found in an active column
- `Shows.check_eq`: the links are found in order
-/

namespace ExactCover

/-- A list of checks that are all passed. -/
private theorem forM_eq_ok {ε α : Type} {f : α → Except ε Unit} {l : List α}
    (h : ∀ x ∈ l, f x = .ok ()) : l.forM f = .ok () := by
  induction l with
  | nil => rfl
  | cons x l ih =>
    show (f x >>= fun _ => l.forM f) = .ok ()
    rw [h x (List.mem_cons_self ..), ok_bind]
    exact ih fun y hy => h y (List.mem_cons_of_mem x hy)

namespace Matrix

/-! ## What a check finds -/

/-- The check is passed with a result as `P` says, or it finds an error as `Q` says. -/
def Finds {α : Type} (P : α → Prop) (Q : LinkError → Prop) : Except LinkError α → Prop
  | .ok a => P a
  | .error e => Q e

section Finds

variable {α β : Type} {P P' : α → Prop} {R : β → Prop} {Q Q' : LinkError → Prop}
  {x : Except LinkError α}

/-- What a check finds may be weakened. -/
theorem Finds.imp (hx : Finds P Q x) (hP : ∀ a, P a → P' a) (hQ : ∀ e, Q e → Q' e) :
    Finds P' Q' x := by
  cases x with
  | ok a => exact hP a hx
  | error e => exact hQ e hx

/-- One check after the other. -/
theorem Finds.bind {f : α → Except LinkError β} (hx : Finds P Q x)
    (hf : ∀ a, P a → Finds R Q (f a)) : Finds R Q (x >>= f) := by
  cases x with
  | ok a => exact hf a hx
  | error e => exact hx

/-- A check that can find nothing is passed. -/
theorem Finds.exists_ok (hx : Finds P Q x) (hQ : ∀ e, ¬ Q e) : ∃ a, x = .ok a ∧ P a := by
  cases x with
  | ok a => exact ⟨a, rfl, hx⟩
  | error e => exact absurd hx (hQ e)

/-- What has been found. -/
theorem Finds.of_error {e : LinkError} (hx : Finds P Q x) (he : x = .error e) : Q e := by
  rwa [he] at hx

/-- A list of checks, of which the first error found counts. -/
theorem finds_forM {f : β → Except LinkError Unit} {l : List β}
    (h : ∀ y ∈ l, Finds (fun _ => R y) Q (f y)) :
    Finds (fun _ => ∀ y ∈ l, R y) Q (l.forM f) := by
  induction l with
  | nil => exact fun y hy => absurd hy List.not_mem_nil
  | cons y l ih =>
    -- the first check, and the rest if it is passed
    refine (h y (List.mem_cons_self ..)).bind fun _ hy => ?_
    exact (ih fun z hz => h z (List.mem_cons_of_mem y hz)).imp
      (fun _ hl => List.forall_mem_cons.mpr ⟨hy, hl⟩) fun _ => id

end Finds

/-! ## Steps -/

variable {m : Matrix} {d : Dir} {a b s c id steps size x : Nat} {l : List Nat}

/-- The neighbour of a node in a direction does not point back to it. -/
def Unreturned (m : Matrix) (d : Dir) (a : Nat) : Prop :=
  ∃ b c, m.link d a = some b ∧ m.link d.back b = some c ∧ c ≠ a

/-- Of a chain of nodes that are joined, each points back to the one before. -/
private theorem not_unreturned_of_isChain (h : (id :: (l ++ [s])).IsChain (m.Joined d))
    (hx : x ∈ id :: l) : ¬ m.Unreturned d x := by
  -- the last node points back to the one before it; the others do by what is known of the rest
  induction l generalizing id with
  | nil =>
    rw [List.nil_append, List.isChain_pair] at h
    rintro ⟨b, c, hb, hc, hne⟩
    -- the link back is a function of the node
    obtain rfl := List.mem_singleton.mp hx
    cases h.1.symm.trans hb
    exact hne (Option.some.inj (hc.symm.trans h.2))
  | cons y l ih =>
    rw [List.cons_append, List.isChain_cons_cons] at h
    rcases List.mem_cons.mp hx with rfl | hx
    · rintro ⟨b, c, hb, hc, hne⟩
      cases h.1.1.symm.trans hb
      exact hne (Option.some.inj (hc.symm.trans h.1.2))
    · exact ih h.2 hx

/-- A step in a direction, which the step back must undo. -/
def step (m : Matrix) (d : Dir) (broken : Nat → LinkError) (id : Nat) : Except LinkError Nat := do
  let next := d.link (← checked (m.node id))
  if d.back.link (← checked (m.node next)) = id then return next
  else throw (broken id)

/-- The step is undone by the step back, or its node is found. -/
private theorem step_finds (broken : Nat → LinkError) (h : m.link d a = some b)
    (hb : b < m.nodes.size) :
    Finds (fun next => next = b ∧ m.Joined d a b) (fun e => e = broken a ∧ m.Unreturned d a)
      (m.step d broken a) := by
  obtain ⟨n, hn, rfl⟩ := exists_node_of_link h
  have hback := link_of_lt hb d.back
  simp only [step, hn, node_of_lt hb, checked, ok_bind]
  -- the neighbour points back, or elsewhere
  split
  next heq => exact ⟨rfl, h, heq ▸ hback⟩
  next hne => exact ⟨rfl, _, _, h, hback, hne⟩

/-- A step to the right is undone, or its node is found. -/
private theorem stepRight_finds (h : m.link .right a = some b) (hb : b < m.nodes.size) :
    Finds (fun next => next = b ∧ m.Joined .right a b)
      (fun e => e = .brokenHorizontal a ∧ m.Unreturned .right a) (m.stepRight a) :=
  step_finds .brokenHorizontal h hb

/-- A step down is undone, or its node is found. -/
private theorem stepDown_finds (h : m.link .down a = some b) (hb : b < m.nodes.size) :
    Finds (fun next => next = b ∧ m.Joined .down a b)
      (fun e => e = .brokenVertical a ∧ m.Unreturned .down a) (m.stepDown a) :=
  step_finds .brokenVertical h hb

/-! ## Ways around -/

/-- Where the way to the right leads back to its start, each step is undone by the step back, or one
    is found of which this is not so. -/
theorem checkRightFrom_finds
    (hchain : (id :: (l ++ [s])).IsChain fun a b => m.link .right a = some b) (hs : s ∉ l)
    (hlt : ∀ x ∈ s :: l, x < m.nodes.size) (hsteps : l.length < steps) :
    Finds (fun _ => (id :: (l ++ [s])).IsChain (m.Joined .right))
      (fun e => ∃ x ∈ id :: l, e = .brokenHorizontal x ∧ m.Unreturned .right x)
      (m.checkRightFrom s steps id) := by
  -- induction on the nodes to come; there are more steps than nodes
  induction l generalizing steps id with
  | nil =>
    -- the last step leads back to the start
    obtain ⟨k, rfl⟩ := Nat.exists_eq_add_one_of_ne_zero (Nat.ne_zero_of_lt hsteps)
    rw [List.nil_append, List.isChain_pair] at hchain
    have hstep := stepRight_finds hchain (hlt s (List.mem_cons_self ..))
    rw [checkRightFrom]
    refine (hstep.imp (fun _ h => h) fun e he => ⟨id, List.mem_cons_self .., he⟩).bind ?_
    rintro _ ⟨rfl, hjoined⟩
    rw [if_pos rfl]
    exact List.isChain_pair.mpr hjoined
  | cons x l ih =>
    -- a node in between, from which the check goes on
    obtain ⟨k, rfl⟩ := Nat.exists_eq_add_one_of_ne_zero (Nat.ne_zero_of_lt hsteps)
    rw [List.cons_append, List.isChain_cons_cons] at hchain
    rw [List.mem_cons, not_or] at hs
    have hlt' : ∀ y ∈ s :: l, y < m.nodes.size := fun y hy => hlt y (by grind)
    have hstep := stepRight_finds hchain.1 (hlt x (by simp))
    rw [checkRightFrom]
    refine (hstep.imp (fun _ h => h) fun e he => ⟨id, List.mem_cons_self .., he⟩).bind ?_
    rintro _ ⟨rfl, hjoined⟩
    rw [if_neg (Ne.symm hs.1)]
    refine (ih hchain.2 hs.2 hlt' (by simpa using hsteps)).imp (fun _ hrest => ?_) ?_
    · exact List.isChain_cons_cons.mpr ⟨hjoined, hrest⟩
    · rintro e ⟨y, hy, he⟩
      exact ⟨y, List.mem_cons_of_mem id hy, he⟩

/-- A ring is found to be closed and linked both ways. -/
private theorem checkRing_eq (h : m.IsRing .right s l) : m.checkRing s = .ok () := by
  -- in a ring every step is undone
  have hfinds := checkRightFrom_finds (h.chain.imp fun _ _ hab => hab.1)
    (List.nodup_cons.mp h.nodup).1 (fun _ hx => h.lt hx) h.length_lt
  obtain ⟨_, heq, _⟩ := hfinds.exists_ok fun _ ⟨_, hx, _, hback⟩ =>
    not_unreturned_of_isChain h.chain hx hback
  exact heq

/-- Where the way down leads back to its header over entries of the column, each step is undone by
    the step back and all entries are counted, or a step is found of which this is not so. -/
theorem checkDownFrom_finds (c count : Nat)
    (hchain : (id :: (l ++ [s])).IsChain fun a b => m.link .down a = some b) (hs : s ∉ l)
    (hlt : ∀ x ∈ s :: l, x < m.nodes.size) (hsteps : l.length < steps)
    (hrole : ∀ x ∈ l, ∃ row, m.role x = some (.entry c row))
    (hrow : ∀ x ∈ l, m.checkRing x = .ok ()) :
    Finds (fun actual => (id :: (l ++ [s])).IsChain (m.Joined .down) ∧ actual = count + l.length)
      (fun e => ∃ x ∈ id :: l, e = .brokenVertical x ∧ m.Unreturned .down x)
      (m.checkDownFrom c s steps count id) := by
  -- induction on the entries to come, each of which counts one more
  induction l generalizing steps count id with
  | nil =>
    -- the last step leads back to the header
    rw [List.nil_append, List.isChain_pair] at hchain
    have hstep := stepDown_finds hchain (hlt s (List.mem_cons_self ..))
    unfold checkDownFrom
    refine (hstep.imp (fun _ h => h) fun e he => ⟨id, List.mem_cons_self .., he⟩).bind ?_
    rintro _ ⟨rfl, hjoined⟩
    rw [if_pos rfl]
    exact ⟨List.isChain_pair.mpr hjoined, rfl⟩
  | cons x l ih =>
    -- an entry, whose row is a ring, so the check goes on below it
    obtain ⟨k, rfl⟩ := Nat.exists_eq_add_one_of_ne_zero (Nat.ne_zero_of_lt hsteps)
    rw [List.cons_append, List.isChain_cons_cons] at hchain
    rw [List.mem_cons, not_or] at hs
    have hlt' : ∀ y ∈ s :: l, y < m.nodes.size := fun y hy => hlt y (by grind)
    obtain ⟨row, hr⟩ := hrole x (List.mem_cons_self ..)
    obtain ⟨n, hn, hnr⟩ := exists_node_of_role hr
    have hcolumn : n.role.column? = some c := by rw [hnr]; rfl
    have hstep := stepDown_finds hchain.1 (hlt x (by simp))
    unfold checkDownFrom
    refine (hstep.imp (fun _ h => h) fun e he => ⟨id, List.mem_cons_self .., he⟩).bind ?_
    rintro _ ⟨rfl, hjoined⟩
    simp only [if_neg (Ne.symm hs.1), hn, checked, ok_bind, hcolumn, ne_eq, not_true_eq_false,
      if_false, hrow _ (List.mem_cons_self ..)]
    refine (ih (count + 1) hchain.2 hs.2 hlt' (by simpa using hsteps)
      (fun y hy => hrole y (List.mem_cons_of_mem _ hy))
      (fun y hy => hrow y (List.mem_cons_of_mem _ hy))).imp (fun actual hrest => ?_) ?_
    · refine ⟨List.isChain_cons_cons.mpr ⟨hjoined, hrest.1⟩, ?_⟩
      rw [hrest.2, List.length_cons]
      omega
    · rintro e ⟨y, hy, he⟩
      exact ⟨y, List.mem_cons_of_mem id hy, he⟩

/-! ## Columns -/

/-- Where the way down a column leads back to its header, the column is found to be a ring of as
    many entries as its size says, or a step is found that is not undone, or the size is not the
    number of entries. -/
theorem Laid.checkActive_finds {t : Table} {rows : List Nat} (h : m.Laid t)
    (hc : c < t.columnCount) (hmem : ∀ i ∈ rows, c ∈ t.columns i)
    (hchain : (header c :: (rows.map (t.entry · c) ++ [header c])).IsChain
      fun a b => m.link .down a = some b)
    (hheader : header c ∉ rows.map (t.entry · c))
    (hlt : ∀ x ∈ header c :: rows.map (t.entry · c), x < m.nodes.size)
    (hlength : (rows.map (t.entry · c)).length < m.nodes.size) (hsize : m.columnSize c = .ok size) :
    Finds
      (fun _ => (header c :: (rows.map (t.entry · c) ++ [header c])).IsChain (m.Joined .down) ∧
        size = rows.length)
      (fun e => (∃ x ∈ header c :: rows.map (t.entry · c),
          e = .brokenVertical x ∧ m.Unreturned .down x) ∨
        e = .sizeMismatch c size rows.length ∧ size ≠ rows.length) (m.checkActive c) := by
  -- the way down is checked first, and then the number of entries met
  have hcount := checkDownFrom_finds c 0 hchain hheader hlt hlength ?_ ?_
  · simp only [checkActive, checkColumn, Table.headerOf_eq hc, checked, ok_bind, hsize]
    refine (hcount.imp (fun _ h => h) fun _ => .inl).bind ?_
    rintro _ ⟨hjoined, rfl⟩
    rw [Nat.zero_add, List.length_map]
    split
    next heq => exact ⟨hjoined, heq.symm⟩
    next hne => exact .inr ⟨rfl, Ne.symm hne⟩
  -- the nodes below the header are entries of the column
  · intro x hx
    obtain ⟨i, hi, rfl⟩ := List.mem_map.mp hx
    exact ⟨_, h.entryRole i c (hmem i hi)⟩
  -- and each of them stands in the ring of its row
  · intro x hx
    obtain ⟨i, hi, rfl⟩ := List.mem_map.mp hx
    exact checkRing_eq (h.row (hmem i hi))

/-- A ring of as many entries as the size of the column says. -/
private theorem Laid.checkActive_eq {t : Table} {rows : List Nat} (h : m.Laid t)
    (hc : c < t.columnCount) (hmem : ∀ i ∈ rows, c ∈ t.columns i)
    (hring : m.IsRing .down (header c) (rows.map (t.entry · c)))
    (hsize : m.columnSize c = .ok rows.length) : m.checkActive c = .ok () := by
  -- nothing can be found: each step is undone, and the size is right
  have hfinds := h.checkActive_finds hc hmem (hring.chain.imp fun _ _ hab => hab.1)
    (List.nodup_cons.mp hring.nodup).1 (fun _ hx => hring.lt hx) hring.length_lt hsize
  obtain ⟨_, heq, _⟩ := hfinds.exists_ok fun _ => by
    rintro (⟨x, hx, -, hback⟩ | ⟨-, hne⟩)
    · exact not_unreturned_of_isChain hring.chain hx hback
    · exact hne rfl
  exact heq

/-! ## The whole matrix -/

/-- The headers of the columns `active` form a ring, and so do the entries of each of them, as many
    as its size says. The links of the other columns may lead anywhere. -/
structure Ringed (m : Matrix) (t : Table) (active : List Nat) : Prop extends Laid m t where
  headers : m.IsRing .right root (active.map header)
  active_lt : ∀ c ∈ active, c < t.columnCount
  column : ∀ c ∈ active, ∃ rows : List Nat, (∀ i ∈ rows, c ∈ t.columns i) ∧
    m.IsRing .down (header c) (rows.map (t.entry · c)) ∧ m.columnSize c = .ok rows.length

/-- The links of such a matrix are found in order. -/
theorem Ringed.check_eq {t : Table} {active : List Nat} (h : m.Ringed t active) :
    m.check = .ok () := by
  -- each of the headers met belongs to a column in order
  have hactive := h.activeColumns_eq_of_isRing h.headers h.active_lt
  have hcolumns : active.forM m.checkActive = .ok () := by
    refine forM_eq_ok fun c hc => ?_
    obtain ⟨rows, hmem, hring, hsize⟩ := h.column c hc
    exact h.toLaid.checkActive_eq (h.active_lt c hc) hmem hring hsize
  simp only [check, checkRing_eq h.headers, hactive, checked, ok_bind]
  exact hcolumns

/-- So are those of a matrix that shows a table. -/
theorem Shows.check_eq {t : Table} {active : List Nat} {linked : Nat → List Nat}
    (h : m.Shows t active linked) : m.check = .ok () :=
  Ringed.check_eq {
    toLaid := h.toLaid
    headers := h.headers
    active_lt := h.active_lt
    column := fun c hc => ⟨linked c, h.member c, h.column c (h.active_lt c hc),
      h.columnSize_eq (h.active_lt c hc)⟩ }

end Matrix
end ExactCover
