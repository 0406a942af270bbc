import ExactCover.Proofs.Matrix.Operations

/-!
# Paired covers and uncovers among other operations

Covers and uncovers are paired if each cover names an active column and each uncover the column
that was covered last of those still covered. With rows added in between, this alone does not keep
the links in order: a row that comes in below a hidden one is not known to it, and the hidden row
is written over the new one when it comes back. It is enough if no cover is undone since which a
row has been added. Rows may still be added while columns are covered, as long as these columns
stay covered.

## Key results

- `IsOpen.operate`: one operation
- `paired_check`: the links are in order after every operation
- `not_paired_check`: pairing alone is not enough
-/

namespace ExactCover

namespace Operation

/-- The columns still covered after an operation, the latest last. -/
def next (cs : List Nat) : Operation → List Nat
  | add _ _ => cs
  | move x => x.next cs

/-- The number of covers not undone since the last row was added, after one more operation. There
    is none if the operation undoes a cover from before that row. -/
def level (k : Nat) : Operation → Option Nat
  | add _ _ => some 0
  | move x => x.level k

/-- Only covers are undone since which no row has been added. -/
def UndoRecent (ops : List Operation) : Prop := (ops.foldlM level 0).isSome

instance (ops : List Operation) : Decidable (UndoRecent ops) :=
  inferInstanceAs (Decidable (_ = true))

end Operation

namespace Matrix

/-- Where the columns `cs` are covered, a row may be added that is accepted, and a column may be
    covered or uncovered if the move is allowed. -/
def Admits (m : Matrix) (cs : List Nat) : Operation → Prop
  | .add row columns => ∃ m', m.addRow row columns = .ok m'
  | .move x => m.Allows cs x

/-- All rows are accepted, and covers and uncovers are paired, where the columns `cs` have been
    covered before. -/
def Paired (m : Matrix) (cs : List Nat) : List Operation → Prop
  | [] => True
  | op :: ops => m.Admits cs op ∧ ∀ m', m.operate op = .ok m' → m'.Paired (op.next cs) ops

instance (m : Matrix) (cs : List Nat) : (op : Operation) → Decidable (m.Admits cs op)
  | .add row columns =>
    match h : m.addRow row columns with
    | .ok m' => .isTrue ⟨m', h⟩
    | .error _ => .isFalse (by simp [Admits, h])
  | .move x => inferInstanceAs (Decidable (m.Allows cs x))

instance instDecidablePaired (m : Matrix) (cs : List Nat) :
    (ops : List Operation) → Decidable (m.Paired cs ops)
  | [] => .isTrue trivial
  | op :: ops =>
    match h : m.operate op with
    | .ok m' =>
      have := instDecidablePaired m' (op.next cs) ops
      decidable_of_iff (m.Admits cs op ∧ m'.Paired (op.next cs) ops) (by simp [Paired, h])
    | .error _ => decidable_of_iff (m.Admits cs op) (by simp [Paired, h])

variable {m m' : Matrix} {t : Table} {active : List Nat} {linked : Nat → List Nat}
  {cs us : List Nat} {c k : Nat} {op : Operation} {ops before after : List Operation}

/-- The first operations of a paired sequence are paired. -/
theorem Paired.left (h : m.Paired cs (before ++ after)) : m.Paired cs before := by
  induction before generalizing m cs with
  | nil => trivial
  | cons op before ih => exact ⟨h.1, fun m' hm' => ih (h.2 m' hm')⟩

/-! ## Matrices in which any active column can be covered -/

/-- A row that is linked into an active column is linked into all its columns. -/
structure Open (m : Matrix) (t : Table) (active : List Nat) (linked : Nat → List Nat) : Prop
    extends Shows m t active linked where
  full : ∀ c ∈ active, ∀ i ∈ linked c, ∀ d ∈ t.columns i, i ∈ linked d

/-- Any active column can be covered, uncovering it restores the matrix exactly, and in between any
    other active column can be covered. -/
theorem Open.cover (h : m.Open t active linked) (hc : c ∈ active) :
    ∃ m', m.cover c = .ok m' ∧ m'.Open t (active.erase c)
        (fun d => if d = c then linked c else (linked d).filter (· ∉ linked c)) ∧
      m'.uncover c = .ok m := by
  obtain ⟨m', hcover, hshows, huncover⟩ := h.toShows.cover hc (h.full c hc)
  refine ⟨m', hcover, ⟨hshows, fun d hd i hi e he => ?_⟩, huncover⟩
  have hnodup : active.Nodup := (List.nodup_cons.mp h.headers.nodup).2.of_map
  obtain ⟨hdc, hd⟩ := hnodup.mem_erase_iff.mp hd
  -- the row does not stand in `c`, so it has stayed in all its columns
  rw [if_neg hdc, List.mem_filter, decide_eq_true_eq] at hi
  have hie := h.full d hd i hi.1 e he
  by_cases hec : e = c
  · exact absurd (hec ▸ hie) hi.2
  · rw [if_neg hec, List.mem_filter, decide_eq_true_eq]
    exact ⟨hie, hi.2⟩

/-- A new row is linked into all its columns. -/
theorem Open.addRow {r : Nat × List Nat} (h : m.Open t active linked)
    (hadd : m.addRow r.1 r.2 = .ok m') :
    ∃ t' linked', m'.Open t' active linked' := by
  obtain ⟨hlt, hnodup, hshows⟩ := h.toShows.addRow hadd
  refine ⟨_, _, hshows, fun c hc i hi d hd => ?_⟩
  -- the row is an old one or the new one
  have hcases : i ∈ linked c ∨ i = t.rows.length := by
    split at hi
    · simpa using hi
    · exact .inl hi
  rcases hcases with hi | rfl
  · rw [Table.snoc_columns (Table.lt_of_mem_columns (h.member c i hi))] at hd
    have hid := h.full c hc i hi d hd
    split
    · exact List.mem_append_left _ hid
    · exact hid
  · rw [Table.snoc_columns_self] at hd
    rw [if_pos hd]
    simp

/-- Any active column can be covered as long as no column is. -/
theorem Covered.open (h : m.Covered t []) : m.Open t (t.active []) (t.linked []) where
  toShows := h.shows
  full c _ i hi d hd := by
    have hnil : ∀ e, Table.before [] e = [] := fun e => Table.before_of_not_mem List.not_mem_nil
    rw [Table.mem_linked, hnil] at hi ⊢
    exact ⟨hd, hi.2⟩

/-! ## Undoing the latest covers -/

/-- Any active column of the matrix can be covered, and the columns `us`, in this order, can be
    uncovered to the same end. -/
def IsOpen (m : Matrix) : List Nat → Prop
  | [] => ∃ t active linked, m.Open t active linked
  | c :: us => (∃ t active linked, m.Open t active linked) ∧ ∃ k, m.uncover c = .ok k ∧ k.IsOpen us

/-- In particular any active column can be covered. -/
private theorem IsOpen.exists_open (h : m.IsOpen us) :
    ∃ t active linked, m.Open t active linked := by
  cases us with
  | nil => exact h
  | cons c us => exact h.1

/-- The links of such a matrix are in order. -/
theorem IsOpen.check_eq (h : m.IsOpen us) : m.check = .ok () := by
  obtain ⟨t, active, linked, hopen⟩ := h.exists_open
  exact hopen.toShows.check_eq

/-- An operation that is admitted succeeds. The columns that can be uncovered then are those covered
    since the last row was added. -/
theorem IsOpen.operate {older : List Nat} {k' : Nat} (h : m.IsOpen us)
    (hop : m.Admits (older ++ us.reverse) op) (hk : op.level us.length = some k') :
    ∃ m' older' us', m.operate op = .ok m' ∧ m'.IsOpen us' ∧
      op.next (older ++ us.reverse) = older' ++ us'.reverse ∧ us'.length = k' := by
  obtain ⟨t, active, linked, hopen⟩ := h.exists_open
  -- a new row hides what was covered before: nothing can be uncovered to the same end
  cases op with
  | add row columns =>
    obtain ⟨m', hadd⟩ := hop
    obtain ⟨t', linked', hopen'⟩ := hopen.addRow (r := (row, columns)) hadd
    refine ⟨m', older ++ us.reverse, [], hadd, ⟨t', active, linked', hopen'⟩, ?_,
      Option.some.inj hk⟩
    simp [Operation.next]
  | move x =>
  cases x with
  -- a cover can be undone next
  | cover c =>
    obtain ⟨active', hactive, hc⟩ := hop
    cases hopen.toShows.activeColumns_eq.symm.trans hactive
    obtain ⟨m', hcover, hopen', huncover⟩ := hopen.cover hc
    refine ⟨m', older, c :: us, ?_, ⟨⟨t, _, _, hopen'⟩, m, huncover, h⟩, ?_, Option.some.inj hk⟩
    · simp only [Matrix.operate, Matrix.move, hcover]
      rfl
    · simp [Operation.next, Move.next]
  | uncover c =>
    cases us with
    | nil => simp [Operation.level, Move.level] at hk
    | cons d us =>
      -- the column uncovered is the last one covered
      have hlast : (older ++ (d :: us).reverse).getLast? = some c := hop
      rw [List.reverse_cons, ← List.append_assoc, List.getLast?_concat, Option.some.injEq] at hlast
      subst hlast
      obtain ⟨-, m', huncover, h'⟩ := h
      refine ⟨m', older, us, ?_, h', ?_, Option.some.inj hk⟩
      · simp only [Matrix.operate, Matrix.move, huncover]
        rfl
      · rw [Operation.next, Move.next, List.reverse_cons, ← List.append_assoc, List.dropLast_concat]

/-- A paired sequence of operations succeeds if no cover is undone since which a row has been
    added. -/
theorem IsOpen.operations {k' : Nat} (h : m.IsOpen us) (older : List Nat)
    (hpaired : m.Paired (older ++ us.reverse) ops)
    (hk : ops.foldlM Operation.level us.length = some k') :
    ∃ m' us', ops.foldlM Matrix.operate m = .ok m' ∧ m'.IsOpen us' := by
  -- induction on the operations, with the columns that can be uncovered
  induction ops generalizing m us older with
  | nil => exact ⟨m, us, rfl, h⟩
  | cons op ops ih =>
    rw [List.foldlM_cons] at hk
    obtain ⟨k₁, hk₁, hk⟩ := Option.bind_eq_some_iff.mp hk
    obtain ⟨m₁, older₁, us₁, hm₁, h₁, hnext, rfl⟩ := h.operate hpaired.1 hk₁
    obtain ⟨m', us', hm', h'⟩ := ih h₁ older₁ (hnext ▸ hpaired.2 m₁ hm₁) hk
    exact ⟨m', us', by rw [List.foldlM_cons, hm₁, ok_bind, hm'], h'⟩

/-! ## The check after every operation -/

/-- Where covers and uncovers are paired, the links are in order after every operation, if no cover
    is undone since which a row has been added. -/
theorem paired_check {n : Nat} {m₀ : Matrix} (hcreate : create n = .ok m₀)
    (hpaired : m₀.Paired [] ops) (hundo : Operation.UndoRecent ops)
    (before after : List Operation) (hops : ops = before ++ after) :
    ∃ m, before.foldlM operate m₀ = .ok m ∧ m.check = .ok () := by
  subst hops
  obtain ⟨hn, rfl⟩ := create_eq_ok_iff.mp hcreate
  -- at the start no column is covered, and none can be uncovered
  have hstart : (empty n).IsOpen [] := ⟨_, _, _, (covered_empty hn).open⟩
  obtain ⟨k, hk⟩ := Option.isSome_iff_exists.mp hundo
  rw [List.foldlM_append] at hk
  obtain ⟨k', hk', -⟩ := Option.bind_eq_some_iff.mp hk
  obtain ⟨m, us, hm, h⟩ := hstart.operations [] hpaired.left hk'
  exact ⟨m, hm, h.check_eq⟩

/-- A row is added between a cover and another, which is undone, and one more when that has been
    undone. -/
theorem paired_check_rows_below_cover :
    let ops : List Operation := [.add 7 [0, 1], .add 8 [1, 2], .move (.cover 0), .add 9 [2, 0],
      .move (.cover 2), .move (.uncover 2), .add 7 [1]]
    ∃ m₀ : Matrix, create 3 = .ok m₀ ∧ m₀.Paired [] ops ∧ Operation.UndoRecent ops ∧
      ∃ m, ops.foldlM operate m₀ = .ok m ∧ m.check = .ok () := by
  intro ops
  have hpaired : (empty 3).Paired [] ops := by decide +kernel
  have hundo : Operation.UndoRecent ops := by decide
  exact ⟨_, rfl, hpaired, hundo,
    paired_check (n := 3) rfl hpaired hundo ops [] (List.append_nil ops).symm⟩

/-- Pairing alone is not enough: a row is added while another one of its column is hidden, and the
    column has lost it when that one is back. -/
theorem not_paired_check :
    ¬ ∀ (n : Nat) (m₀ : Matrix) (ops before after : List Operation), create n = .ok m₀ →
      m₀.Paired [] ops → ops = before ++ after →
        ∃ m, before.foldlM operate m₀ = .ok m ∧ m.check = .ok () := by
  intro h
  let ops : List Operation :=
    [.add 0 [0, 1], .move (.cover 0), .add 1 [1], .move (.uncover 0)]
  have hpaired : (empty 2).Paired [] ops := by decide +kernel
  have hrun : (ops.foldlM operate (empty 2)).map check = .ok (.error (.sizeMismatch 1 2 1)) := by
    decide +kernel
  obtain ⟨m, hm, hcheck⟩ := h 2 (empty 2) ops ops [] rfl hpaired (List.append_nil ops).symm
  rw [hm] at hrun
  exact nomatch hcheck.symm.trans (Except.ok.inj hrun)

end Matrix
end ExactCover
