import ExactCover.Proofs.Matrix.Climb
import ExactCover.Proofs.Matrix.Cover

/-!
# Adding rows

An accepted row comes in at the bottom of each of its columns and changes nothing else that a
matrix shows. So the matrix built from a list of rows shows the table of these rows, with all
columns active and all rows linked into their columns.

## Key results

- `Lanes.appendEntries`: where the entries of a row come in, and what they leave alone
- `Laid.addRow`: the nodes of a new row, whatever the links of the columns are
- `Shows.addRow`: a row added to any matrix that shows a table
- `covered_of_create`: the matrix built by adding rows to an empty one
-/

namespace ExactCover.Matrix

/-! ## Lines of nodes -/

/-- Each column has a line of nodes to itself, and the link up from its header stays in the line. -/
structure Lanes (m : Matrix) (n : Nat) (line : Nat → Set Nat) : Prop where
  header_mem : ∀ c < n, header c ∈ line c
  lt : ∀ c < n, ∀ x ∈ line c, x < m.nodes.size
  up : ∀ c < n, ∃ p ∈ line c, m.link .up (header c) = some p
  disjoint : ∀ c < n, ∀ c' < n, ∀ x ∈ line c, x ∈ line c' → c = c'
  sizeCount : m.sizes.size = n

/-- The column cannot take one entry more. -/
def Full (m : Matrix) (c : Nat) : Prop := ∃ k, m.sizes[c]? = some k ∧ wordBound ≤ k + 1

/-- The size kept for a column tells whether it is full. -/
theorem Full.iff_of_size {m : Matrix} {c k : Nat} (h : m.sizes[c]? = some k) :
    m.Full c ↔ wordBound ≤ k + 1 := by
  rw [Full, h]
  simp

/-- The lines of the columns with one node more for each of `columns`, from the index `id` on. -/
def extend (line : Nat → Set Nat) (id : Nat) (columns : List Nat) (c : Nat) : Set Nat :=
  if c ∈ columns then insert (id + columns.idxOf c) (line c) else line c

/-- The node `id` has come in at the bottom of the column `c`, whose nodes are those of `line`. All
    else that has been done to `m` has left these nodes alone. -/
def Lengthened (m m' : Matrix) (c id : Nat) (line : Set Nat) : Prop :=
  ∃ (k : Matrix) (entry : Node), k.nodes.size = id ∧ k.link .up (header c) = some entry.up ∧
    entry.down = header c ∧ (∀ x ∈ line, ∀ d, k.link d x = m.link d x) ∧
    ∀ x ∈ insert id line, ∀ d,
      m'.link d x = ((k.push entry).splice .down entry.up id (header c) id).link d x

/-- What is known of the columns of `m'` after the entries of `columns` have been appended to `m`. -/
structure Grown (m m' : Matrix) (n : Nat) (line : Nat → Set Nat) (columns : List Nat) : Prop where
  lanes : m'.Lanes n (extend line m.nodes.size columns)
  size : ∀ c k, m.sizes[c]? = some k → m'.sizes[c]? = some (if c ∈ columns then k + 1 else k)
  room : ∀ c ∈ columns, ¬ m.Full c
  kept : ∀ c < n, c ∉ columns → ∀ x ∈ line c, ∀ d, m'.link d x = m.link d x
  bottom : ∀ c ∈ columns, Lengthened m m' c (m.nodes.size + columns.idxOf c) (line c)

/-- The entries of `columns` have come in, or one of the columns is full. -/
def Grows (m : Matrix) (n : Nat) (line : Nat → Set Nat) (columns : List Nat) :
    Except Fault Matrix → Prop
  | .ok m' => Grown m m' n line columns
  | .error cause => cause = .overflow ∧ ∃ c ∈ columns, m.Full c

/-- What is known of the matrix `m'` after the entries of `columns` have been appended to `m`,
    whatever the links of the columns are. -/
structure Extended (m m' : Matrix) (row first last : Nat) (columns : List Nat) : Prop where
  nodeCount : m'.nodes.size = m.nodes.size + columns.length
  sizeCount : m'.sizes.size = m.sizes.size
  rowCount : m'.rowCount = m.rowCount
  oldLink : ∀ i < m.nodes.size, ∀ d, d ≠ .down → d ≠ .up → m'.link d i = m.link d i
  oldRole : ∀ i < m.nodes.size, m'.role i = m.role i
  newRole : ∀ j (hj : j < columns.length),
    m'.role (m.nodes.size + j) = some (.entry columns[j] row)
  newLeft : ∀ j < columns.length, m'.link .left (m.nodes.size + j) =
    some (if m.nodes.size + j = first then last else m.nodes.size + j - 1)
  newRight : ∀ j < columns.length, m'.link .right (m.nodes.size + j) =
    some (if m.nodes.size + j = last then first else m.nodes.size + j + 1)

variable {m m₁ m' m₁' : Matrix} {n c p row left right first last : Nat} {line : Nat → Set Nat}
  {columns : List Nat}

/-! ## The bottom of a column -/

namespace Lengthened

variable {id : Nat} {nodes : Set Nat} {l : List Nat}

/-- Only the links of the nodes of the column count, before and after. -/
theorem congr (h : Lengthened m m' c id nodes) (hold : ∀ x ∈ nodes, ∀ d, m.link d x = m₁.link d x)
    (hnew : ∀ x ∈ insert id nodes, ∀ d, m₁'.link d x = m'.link d x) :
    Lengthened m₁ m₁' c id nodes := by
  obtain ⟨k, entry, hsize, hup, hdown, hk, hlink⟩ := h
  exact ⟨k, entry, hsize, hup, hdown, fun x hx d => (hk x hx d).trans (hold x hx d),
    fun x hx d => (hnew x hx d).trans (hlink x hx d)⟩

/-- A ring of nodes of the column takes in the new node at its end. -/
private theorem isRing (h : Lengthened m m' c id nodes) (hnodes : ∀ x ∈ header c :: l, x ∈ nodes)
    (hring : m.IsRing .down (header c) l) : m'.IsRing .down (header c) (l ++ [id]) := by
  obtain ⟨k, entry, rfl, hup, hdown, hk, hlink⟩ := h
  have hold := fun x hx => hk x (hnodes x hx)
  have hnew := (hring.congr (hold · · .down) (hold · · .up)).append hup rfl hdown
  have hmem : ∀ x ∈ header c :: (l ++ [k.nodes.size]), x ∈ insert k.nodes.size nodes := by
    intro x hx
    rw [← List.cons_append, List.mem_append, List.mem_singleton] at hx
    exact hx.symm.imp_right (hnodes x)
  exact hnew.congr (fun x hx => hlink x (hmem x hx) .down) fun x hx => hlink x (hmem x hx) .up

/-- The links of the column still climb. -/
theorem climbs (h : Lengthened m m' c id nodes) (hclimbs : m.Climbs .down (header c) nodes) :
    m'.Climbs .down (header c) (insert id nodes) := by
  obtain ⟨k, entry, rfl, hup, hdown, hk, hlink⟩ := h
  have hnew := (hclimbs.congr (hk · · .down) (hk · · .up)).append hup rfl hdown
  exact hnew.congr (hlink · · .down) (hlink · · .up)

end Lengthened

/-! ## One entry -/

/-- An entry is appended by a new node, two links and a larger size. It names the node above the
    header, whichever that is. -/
private theorem appendEntry_eq (hp : m.link .up (header c) = some p) (hpl : p < m.nodes.size)
    (row left right : Nat) :
    m.appendEntry row left right c =
      ((m.push ⟨left, right, p, header c, .entry c row⟩).splice .down p m.nodes.size
        (header c) m.nodes.size).grow c := by
  have hh := lt_of_link hp
  obtain ⟨k, hk, rfl⟩ := exists_node_of_link hp
  let entry : Node := ⟨left, right, k.up, header c, .entry c row⟩
  have hwrite := modifyNode_modifyNode (m := m.push entry) (p := Dir.up.link k) (q := header c)
    -- the two links are written one after the other, and then the size
    (by rw [push_nodes_size]; omega) (by rw [push_nodes_size]; omega) .down m.nodes.size
    m.nodes.size
  have hbind := congrArg (· >>= (Matrix.grow · c)) hwrite
  simp only [bind_assoc, ok_bind] at hbind
  refine .trans ?_ hbind
  simp only [appendEntry, hk, ok_bind]
  rfl

/-- An entry that has been appended is a new node, whatever the matrix was like. -/
private theorem of_appendEntry_eq_ok (h : m.appendEntry row left right c = .ok m') :
    ∃ p k, m' = ((m.push ⟨left, right, p, header c, .entry c row⟩).splice .down p m.nodes.size
      (header c) m.nodes.size).resize c k := by
  -- each step of `appendEntry` in turn
  obtain ⟨n, -, h⟩ := bind_eq_ok.mp h
  obtain ⟨m₁, h₁, h⟩ := bind_eq_ok.mp h
  obtain ⟨m₂, h₂, h⟩ := bind_eq_ok.mp h
  obtain ⟨k, rfl⟩ := of_grow_eq_ok h
  cases of_modifyNode_eq_ok h₁
  cases of_modifyNode_eq_ok h₂
  exact ⟨n.up, k, rfl⟩

/-- The nodes of a line, and the new one if the line takes one. -/
private theorem mem_extend {id x : Nat} :
    x ∈ extend line id columns c ↔ x ∈ line c ∨ c ∈ columns ∧ x = id + columns.idxOf c := by
  by_cases hc : c ∈ columns
  · rw [extend, if_pos hc, Set.mem_insert_iff, and_iff_right hc, or_comm]
  · simp only [extend, hc, if_false, false_and, or_false]

/-- Nodes of different lines are different. -/
private theorem Lanes.ne_of_mem {c' x y : Nat} (h : m.Lanes n line) (hc : c < n) (hc' : c' < n)
    (hne : c ≠ c') (hx : x ∈ line c) (hy : y ∈ line c') : x ≠ y :=
  fun heq => hne (h.disjoint c hc c' hc' x hx (heq ▸ hy))

/-- A new node comes in at the bottom of one column, and nothing else changes down the columns. -/
private theorem Lanes.append (h : m.Lanes n line) (hc : c < n) {k : Nat} (hp : p ∈ line c)
    (hup : m.link .up (header c) = some p) (hk : m.sizes[c]? = some k) (hroom : k + 1 < wordBound)
    (row left right : Nat) :
    Grown m (((m.push ⟨left, right, p, header c, .entry c row⟩).splice .down p m.nodes.size
      (header c) m.nodes.size).resize c (k + 1)) n line [c] where
  lanes := {
    header_mem := fun d hd => mem_extend.mpr (.inl (h.header_mem d hd))
    lt := fun d hd x hx => by
      simp only [resize, splice_nodes_size, push_nodes_size]
      rcases mem_extend.mp hx with hx | ⟨hd', rfl⟩
      · exact Nat.lt_succ_of_lt (h.lt d hd x hx)
      · rw [List.mem_singleton.mp hd', List.idxOf_cons_self]
        exact Nat.lt_succ_self _
    up := fun d hd => by
      by_cases heq : d = c
      · subst heq
        refine ⟨m.nodes.size, mem_extend.mpr (.inr ⟨List.mem_singleton_self d, by simp⟩), ?_⟩
        have hlt := h.lt d hd _ (h.header_mem d hd)
        exact link_splice_back_self (by rw [push_nodes_size]; omega) .down _ _ _
      · obtain ⟨q, hq, hlink⟩ := h.up d hd
        have hhead := h.header_mem d hd
        refine ⟨q, mem_extend.mpr (.inl hq), ?_⟩
        rw [link_resize, link_splice_of_ne (h.ne_of_mem hd hc heq hhead hp)
          (h.ne_of_mem hd hc heq hhead (h.header_mem c hc)), link_push_of_lt (h.lt d hd _ hhead)]
        exact hlink
    disjoint := fun a ha b hb x hxa hxb => by
      -- only the line of `c` has grown, and only by the new node
      have hfresh : ∀ e < n, m.nodes.size ∉ line e := fun e he hmem =>
        Nat.lt_irrefl _ (h.lt e he _ hmem)
      simp only [mem_extend, List.mem_singleton] at hxa hxb
      rcases hxa with hxa | ⟨rfl, rfl⟩ <;> rcases hxb with hxb | ⟨rfl, hx⟩
      · exact h.disjoint a ha b hb x hxa hxb
      · rw [hx, List.idxOf_cons_self] at hxa
        exact absurd hxa (hfresh a ha)
      · rw [List.idxOf_cons_self] at hxb
        exact absurd hxb (hfresh b hb)
      · rfl
    sizeCount := by simpa [resize, push] using h.sizeCount }
  size c' k' hk' := by
    by_cases heq : c' = c
    · subst heq
      cases hk.symm.trans hk'
      rw [if_pos (List.mem_singleton_self c')]
      exact sizes_resize_self (Array.getElem?_eq_some_iff.mp hk).1 _
    · rw [if_neg (by simpa using heq), sizes_resize_of_ne heq]
      exact hk'
  room c' hc' := by
    rintro ⟨k', hk', hfull⟩
    obtain rfl := List.mem_singleton.mp hc'
    cases hk.symm.trans hk'
    exact Nat.not_lt.mpr hfull hroom
  kept d hd hnot x hx e := by
    have hx' : ∀ y ∈ line c, x ≠ y := fun y hy =>
      h.ne_of_mem hd hc (List.mem_singleton.not.mp hnot) hx hy
    rw [link_resize, link_splice_of_ne (hx' p hp) (hx' _ (h.header_mem c hc)),
      link_push_of_lt (h.lt d hd x hx)]
  bottom d hd := by
    obtain rfl := List.mem_singleton.mp hd
    rw [List.idxOf_cons_self, Nat.add_zero]
    exact ⟨m, _, rfl, hup, rfl, fun _ _ _ => rfl, fun _ _ _ => rfl⟩

/-- An entry comes in at the bottom of its column unless this is full. -/
theorem Lanes.appendEntry (h : m.Lanes n line) (hc : c < n) (row left right : Nat) :
    (∃ m', m.appendEntry row left right c = .ok m' ∧ m'.nodes.size = m.nodes.size + 1 ∧
        Grown m m' n line [c]) ∨
      m.appendEntry row left right c = .error .overflow ∧ m.Full c := by
  obtain ⟨p, hp, hup⟩ := h.up c hc
  -- the links are written in any case, and only the size may be too large
  have hsize : c < m.sizes.size := h.sizeCount ▸ hc
  have hk := Array.getElem?_eq_getElem hsize
  rw [appendEntry_eq hup (h.lt c hc p hp)]
  by_cases hroom : m.sizes[c] + 1 < wordBound
  · refine .inl ⟨_, grow_eq (m := (m.push _).splice ..) hk hroom, ?_, ?_⟩
    · exact (splice_nodes_size ..).trans (push_nodes_size ..)
    · exact h.append hc hp hup hk hroom row left right
  · exact .inr ⟨grow_eq_overflow (m := (m.push _).splice ..) hk hroom,
      _, hk, Nat.not_lt.mp hroom⟩

/-! ## The entries of a row -/

/-- Without columns no line grows. -/
private theorem extend_nil {id : Nat} : extend line id [] = line := by
  funext c
  rw [extend, if_neg List.not_mem_nil]

/-- The first entry of a row comes in before the others. -/
private theorem extend_cons {id : Nat} (hc : c ∉ columns) :
    extend line id (c :: columns) = extend (extend line id [c]) (id + 1) columns := by
  funext d
  ext x
  by_cases hd : d = c
  · subst hd
    simp [mem_extend, hc]
  · simp [mem_extend, hd, List.idxOf_cons_ne _ (Ne.symm hd), Nat.add_assoc, Nat.add_comm 1]

/-- Without entries nothing changes. -/
theorem Grown.refl (h : m.Lanes n line) : Grown m m n line [] where
  lanes := extend_nil ▸ h
  size _ _ hk := hk
  room := by simp
  kept _ _ _ _ _ _ := rfl
  bottom := by simp

/-- An entry has come in, and then the entries of other columns. -/
theorem Grown.cons (hlt : ∀ d ∈ c :: columns, d < n) (hc : c ∉ columns)
    (hsize : m₁.nodes.size = m.nodes.size + 1) (h : Grown m m₁ n line [c])
    (h' : Grown m₁ m' n (extend line m.nodes.size [c]) columns) :
    Grown m m' n line (c :: columns) where
  lanes := by
    rw [extend_cons hc, ← hsize]
    exact h'.lanes
  size d k hk := by
    refine (h'.size d _ (h.size d k hk)).trans (congrArg some ?_)
    by_cases hd : d = c
    · subst hd
      simp [hc]
    · simp [hd]
  room d hd := by
    rcases List.mem_cons.mp hd with rfl | hd
    · exact h.room d (List.mem_singleton_self d)
    · have hdc : d ∉ [c] := fun heq => hc (List.mem_singleton.mp heq ▸ hd)
      rintro ⟨k, hk, hfull⟩
      refine h'.room d hd ⟨k, ?_, hfull⟩
      simpa only [if_neg hdc] using h.size d k hk
  kept d hd hnot x hx e := by
    rw [List.mem_cons, not_or] at hnot
    rw [h'.kept d hd hnot.2 x (mem_extend.mpr (.inl hx)),
      h.kept d hd (by simpa using hnot.1) x hx]
  bottom d hd := by
    have hdn := hlt d hd
    rcases List.mem_cons.mp hd with rfl | hd
    · -- the other entries leave the column of the first one alone
      have hkept := h'.kept d hdn hc
      have hbottom := h.bottom d (List.mem_singleton_self d)
      rw [extend, if_pos (List.mem_singleton_self d), List.idxOf_cons_self] at hkept
      rw [List.idxOf_cons_self] at hbottom ⊢
      exact hbottom.congr (fun _ _ _ => rfl) hkept
    · -- the first one leaves the columns of the others alone
      have hdc : d ∉ [c] := fun heq => hc (List.mem_singleton.mp heq ▸ hd)
      have hbottom := h'.bottom d hd
      rw [extend, if_neg hdc, hsize, Nat.add_right_comm] at hbottom
      rw [List.idxOf_cons_ne _ (List.ne_of_not_mem_cons hdc).symm]
      exact hbottom.congr (h.kept d hdn hdc) fun _ _ _ => rfl

/-- The entries of a row come in at the bottom of their columns, unless one of these is full. -/
theorem Lanes.appendEntries (h : m.Lanes n line) (hlt : ∀ c ∈ columns, c < n)
    (hnodup : columns.Nodup) (row first last : Nat) :
    m.Grows n line columns (appendEntries row first last m.nodes.size columns m) := by
  -- induction on the columns: the first entry comes in, and then the others behind it
  induction columns generalizing m line with
  | nil => exact .refl h
  | cons c columns ih =>
    rw [List.nodup_cons] at hnodup
    rw [Matrix.appendEntries]
    rcases h.appendEntry (hlt c (List.mem_cons_self ..)) row
      (if m.nodes.size = first then last else m.nodes.size - 1)
      (if m.nodes.size = last then first else m.nodes.size + 1) with
      ⟨m₁, heq, hsize, h₁⟩ | ⟨heq, hfull⟩
    · have h' := ih h₁.lanes (fun d hd => hlt d (List.mem_cons_of_mem c hd)) hnodup.2
      simp only [heq, ok_bind]
      rw [← hsize]
      generalize Matrix.appendEntries row first last m₁.nodes.size columns m₁ = x at h'
      cases x with
      | ok m' => exact .cons hlt hnodup.1 hsize h₁ h'
      | error cause =>
        obtain ⟨hcause, d, hd, k, hk, hfull⟩ := h'
        -- a column that is full then was full before
        have hne : d ≠ c := fun heq => hnodup.1 (heq ▸ hd)
        have hdn : d < m.sizes.size := h.sizeCount ▸ hlt d (List.mem_cons_of_mem c hd)
        have hold := h₁.size d _ (Array.getElem?_eq_getElem hdn)
        rw [if_neg (by simpa using hne), hk] at hold
        exact ⟨hcause, d, List.mem_cons_of_mem c hd, k,
          (Array.getElem?_eq_getElem hdn).trans hold.symm, hfull⟩
    -- the column of the first entry is full
    · simp only [heq, error_bind]
      exact ⟨rfl, c, List.mem_cons_self .., hfull⟩

/-- The entries of a row are new nodes next to each other, whatever the matrix was like. -/
private theorem appendEntries_extended {columns : List Nat}
    (hadd : appendEntries row first last m.nodes.size columns m = .ok m') :
    Extended m m' row first last columns := by
  -- induction on the columns: the first entry makes a matrix to which the others are appended
  induction columns generalizing m with
  | nil =>
    rw [appendEntries, Except.ok.injEq] at hadd
    subst hadd
    exact {
      nodeCount := rfl
      sizeCount := rfl
      rowCount := rfl
      oldLink := fun _ _ _ _ _ => rfl
      oldRole := fun _ _ => rfl
      newRole := by simp
      newLeft := by simp
      newRight := by simp }
  | cons c columns ih =>
    rw [appendEntries] at hadd
    obtain ⟨m₁, hentry, hadd⟩ := bind_eq_ok.mp hadd
    obtain ⟨p, k, hm₁⟩ := of_appendEntry_eq_ok hentry
    let left := if m.nodes.size = first then last else m.nodes.size - 1
    let right := if m.nodes.size = last then first else m.nodes.size + 1
    let entry : Node := ⟨left, right, p, header c, .entry c row⟩
    have hsize : m₁.nodes.size = m.nodes.size + 1 := by
      rw [hm₁]
      exact (splice_nodes_size ..).trans (push_nodes_size ..)
    rw [← hsize] at hadd
    have h₁ := ih hadd
    have hlink : ∀ i d, d ≠ .down → d ≠ .up → m₁.link d i = (m.push entry).link d i :=
      fun i d hd hu => by rw [hm₁, link_resize, link_splice_of_dir_ne _ hd hu]
    have hrole : ∀ i, m₁.role i = (m.push entry).role i :=
      fun i => by rw [hm₁, role_resize, splice_role]
    -- the first entry is an old node for the entries behind it
    have hlt₁ : ∀ i ≤ m.nodes.size, i < m₁.nodes.size := by omega
    have hfirst : ∀ d, d ≠ .down → d ≠ .up → m'.link d m.nodes.size = some (d.link entry) := by
      intro d hd hu
      rw [h₁.oldLink _ (hlt₁ _ le_rfl) d hd hu, hlink _ d hd hu, link_push_self]
    have hnext : ∀ j, m₁.nodes.size + j = m.nodes.size + (j + 1) := by omega
    exact {
      nodeCount := by rw [h₁.nodeCount, hsize, List.length_cons]; omega
      sizeCount := by rw [h₁.sizeCount, hm₁]; exact Array.size_setIfInBounds
      rowCount := by rw [h₁.rowCount, hm₁]; rfl
      oldLink := fun i hi d hd hu => by
        rw [h₁.oldLink i (hlt₁ i hi.le) d hd hu, hlink i d hd hu, link_push_of_lt hi]
      oldRole := fun i hi => by
        rw [h₁.oldRole i (hlt₁ i hi.le), hrole, role_push_of_lt hi]
      newRole := fun j hj => by
        cases j with
        | zero =>
          rw [Nat.add_zero, h₁.oldRole _ (hlt₁ _ le_rfl), hrole, role_push_self]
          rfl
        | succ j =>
          rw [← hnext]
          exact h₁.newRole j (by simpa using hj)
      newLeft := fun j hj => by
        cases j with
        | zero => exact hfirst .left (by decide) (by decide)
        | succ j =>
          rw [← hnext]
          exact h₁.newLeft j (by simpa using hj)
      newRight := fun j hj => by
        cases j with
        | zero => exact hfirst .right (by decide) (by decide)
        | succ j =>
          rw [← hnext]
          exact h₁.newRight j (by simpa using hj) }

/-! ## A row -/

/-- What `addRow` does to a matrix when it accepts a row. -/
private theorem of_addRow_eq_ok {row : Nat} {columns : List Nat}
    (hadd : m.addRow row columns = .ok m') :
    (∀ c ∈ columns, c < m.sizes.size) ∧ columns.Nodup ∧
      ∃ k, appendEntries row m.nodes.size (m.nodes.size + columns.length - 1) m.nodes.size
        columns m = .ok k ∧
        m' = { k with rowCount := k.rowCount + if columns.isEmpty then 0 else 1 } := by
  -- the three checks in turn; a row without columns appends nothing
  simp only [addRow] at hadd
  split at hadd
  · exact nomatch hadd
  next hlt =>
  split at hadd
  · exact nomatch hadd
  next hnodup =>
  refine ⟨not_not.mp hlt, not_not.mp hnodup, ?_⟩
  split at hadd
  next hempty =>
    rw [Except.ok.injEq] at hadd
    rw [List.isEmpty_iff] at hempty
    subst hempty hadd
    exact ⟨m, rfl, rfl⟩
  next hempty =>
    split at hadd
    · exact nomatch hadd
    next k hk =>
      rw [Except.ok.injEq] at hadd
      refine ⟨k, hk, ?_⟩
      rw [if_neg hempty]
      exact hadd.symm

/-- What `addRow` has tried when it fails on a link or a size. -/
theorem of_addRow_eq_fault {row : Nat} {columns : List Nat} {cause : Fault}
    (hadd : m.addRow row columns = .error (.fault cause)) :
    (∀ c ∈ columns, c < m.sizes.size) ∧ columns.Nodup ∧
      appendEntries row m.nodes.size (m.nodes.size + columns.length - 1) m.nodes.size
        columns m = .error cause := by
  -- the three checks in turn; only an entry can fail on a link or a size
  simp only [addRow] at hadd
  split at hadd
  · exact nomatch hadd
  next hlt =>
  split at hadd
  · exact nomatch hadd
  next hnodup =>
  split at hadd
  · exact nomatch hadd
  split at hadd
  next fault hfault =>
    cases hadd
    exact ⟨not_not.mp hlt, not_not.mp hnodup, hfault⟩
  · exact nomatch hadd

/-- Links sideways of old nodes are as they were. -/
theorem link_of_addRow {d : Dir} {x : Nat} (hadd : m.addRow row columns = .ok m')
    (hx : x < m.nodes.size) (hd : d ≠ .down) (hu : d ≠ .up) : m'.link d x = m.link d x := by
  obtain ⟨-, -, k, hk, rfl⟩ := of_addRow_eq_ok hadd
  exact (appendEntries_extended hk).oldLink x hx d hd hu

/-- So a ring of them is still a ring. -/
theorem IsRing.addRow {s : Nat} {l : List Nat} (h : m.IsRing .right s l)
    (hadd : m.addRow row columns = .ok m') : m'.IsRing .right s l :=
  h.congr (fun _ hx => link_of_addRow hadd (h.lt hx) (by decide) (by decide))
    fun _ hx => link_of_addRow hadd (h.lt hx) (by decide) (by decide)

/-- Links sideways between old nodes are as they were. -/
private theorem Extended.joined {columns : List Nat} {a b : Nat}
    (h : Extended m m' row first last columns) (hab : m.Joined .right a b) :
    m'.Joined .right a b := by
  refine ⟨?_, ?_⟩
  · rw [h.oldLink a (lt_of_link hab.1) _ (by decide) (by decide)]
    exact hab.1
  · rw [h.oldLink b (lt_of_link hab.2) _ (by decide) (by decide)]
    exact hab.2

/-- The new nodes form a ring sideways. -/
private theorem Extended.joined_new {columns : List Nat} {j : Nat}
    (h : Extended m m' row m.nodes.size last columns)
    (hlast : last = m.nodes.size + columns.length - 1) (hj : j < columns.length) :
    m'.Joined .right (m.nodes.size + j) (m.nodes.size + (j + 1) % columns.length) := by
  refine ⟨?_, ?_⟩
  · rw [h.newRight j hj]
    -- the last entry leads back to the first
    by_cases hend : j + 1 = columns.length
    · rw [if_pos (by omega), hend, Nat.mod_self, Nat.add_zero]
    · rw [if_neg (by omega), Nat.mod_eq_of_lt (by omega)]
      rfl
  · rw [show Dir.right.back = Dir.left from rfl, h.newLeft _ (Nat.mod_lt _ (by omega))]
    by_cases hend : j + 1 = columns.length
    · rw [hend, Nat.mod_self, if_pos (by omega), hlast]
      congr 1
      omega
    · rw [Nat.mod_eq_of_lt (by omega), if_neg (by omega)]
      congr 1

/-- The nodes of an accepted row stand behind those of the other rows. -/
theorem Laid.addRow {t : Table} {r : Nat × List Nat} (h : m.Laid t)
    (hadd : m.addRow r.1 r.2 = .ok m') :
    ∃ (hlt : ∀ c ∈ r.2, c < t.columnCount) (hnodup : r.2.Nodup),
      m'.Laid (t.snoc r hlt hnodup) := by
  obtain ⟨hlt, hnodup, k, hk, rfl⟩ := of_addRow_eq_ok hadd
  rw [h.sizeCount] at hlt
  -- the table gains one row, whose nodes come behind all others
  have hext := appendEntries_extended hk
  have hsize := h.nodeCount
  exact ⟨hlt, hnodup, {
    nodeCount := by
      rw [Table.snoc_nodeCount, ← hsize]
      exact hext.nodeCount
    sizeCount := hext.sizeCount.trans h.sizeCount
    rowCount := by
      simp only [Table.snoc, List.countP_append, ← h.rowCount, hext.rowCount, List.countP_singleton]
      cases r.2.isEmpty <;> rfl
    headerRole := fun c hc => by
      have hrole := h.headerRole c hc
      exact (hext.oldRole _ (lt_of_role hrole)).trans hrole
    entryRole := fun i c hc => by
      rcases Table.snoc_cases hc with hi | rfl
      · rw [Table.snoc_columns hi] at hc
        have hrole := h.entryRole i c hc
        rw [Table.snoc_entry hi, Table.snoc_id hi]
        exact (hext.oldRole _ (lt_of_role hrole)).trans hrole
      · rw [Table.snoc_columns_self] at hc
        have hj := List.idxOf_lt_length_of_mem hc
        rw [Table.snoc_entry_self, Table.snoc_id_self, ← hsize]
        exact (hext.newRole _ hj).trans (by rw [List.getElem_idxOf])
    rowLinks := fun i j hj => by
      rcases Table.snoc_cases (List.getElem_mem hj) with hi | rfl
      · rw [Table.snoc_columns hi] at hj ⊢
        rw [Table.snoc_first hi.le]
        exact hext.joined (h.rowLinks i j hj)
      · rw [Table.snoc_columns_self] at hj ⊢
        rw [Table.snoc_first le_rfl, show t.first t.rows.length = m.nodes.size from hsize.symm]
        exact hext.joined_new rfl hj }⟩

/-- The entries of an accepted row have come in. -/
theorem Lanes.grown_of_addRow (h : m.Lanes n line) (hadd : m.addRow row columns = .ok m') :
    Grown m m' n line columns := by
  obtain ⟨hlt, hnodup, k, hk, rfl⟩ := of_addRow_eq_ok hadd
  have hgrows := h.appendEntries (h.sizeCount ▸ hlt) hnodup row m.nodes.size
    (m.nodes.size + columns.length - 1)
  rw [hk] at hgrows
  -- the number of rows is no part of the columns
  have hlanes := hgrows.lanes
  exact ⟨⟨hlanes.header_mem, hlanes.lt, hlanes.up, hlanes.disjoint, hlanes.sizeCount⟩,
    hgrows.size, hgrows.room, hgrows.kept, hgrows.bottom⟩

/-- A row is accepted if it names different columns of the matrix that are not full. -/
theorem Lanes.addRow_isOk (h : m.Lanes n line) (hlt : ∀ c ∈ columns, c < n)
    (hnodup : columns.Nodup) (row : Nat) (hroom : ∀ c ∈ columns, ¬ m.Full c) :
    ∃ m', m.addRow row columns = .ok m' := by
  -- the entries are tried once the checks are passed
  have hgrows := h.appendEntries hlt hnodup row m.nodes.size (m.nodes.size + columns.length - 1)
  rw [← h.sizeCount] at hlt
  simp only [Matrix.addRow, if_neg (not_not.mpr hlt), if_neg (not_not.mpr hnodup)]
  split
  · exact ⟨m, rfl⟩
  · split
    next cause hcause =>
      rw [hcause] at hgrows
      obtain ⟨-, c, hc, hfull⟩ := hgrows
      exact absurd hfull (hroom c hc)
    next => exact ⟨_, rfl⟩

/-- The columns of a matrix that shows a table. -/
private theorem Shows.lanes {t : Table} {active : List Nat} {linked : Nat → List Nat}
    (h : m.Shows t active linked) :
    m.Lanes t.columnCount fun c => {x | x ∈ header c :: (linked c).map (t.entry · c)} where
  header_mem _ _ := List.mem_cons_self ..
  lt c hc _ hx := (h.column c hc).lt hx
  up c hc := by
    obtain ⟨p, hp⟩ := exists_head?_concat ((linked c).map (t.entry · c)).reverse (header c)
    refine ⟨p, ?_, (h.column c hc).reverse.link_start hp⟩
    have hmem := List.mem_of_head? hp
    rw [List.mem_append, List.mem_reverse, List.mem_singleton] at hmem
    exact List.mem_cons.mpr hmem.symm
  disjoint c hc c' hc' x hx hx' := by
    by_contra hne
    exact h.columnNodes_disjoint hc hc' hne hx hx'
  sizeCount := h.sizeCount

/-- The ring of a column takes in the new row at its end, if it is one of its columns. -/
theorem Grown.isRing_snoc {t : Table} {r : Nat × List Nat} {rows : List Nat}
    (h : Grown m m' t.columnCount line r.2) (hlt : ∀ c ∈ r.2, c < t.columnCount)
    (hnodup : r.2.Nodup) (hsize : m.nodes.size = t.nodeCount)
    (hc : c < t.columnCount) (hmem : ∀ i ∈ rows, c ∈ t.columns i)
    (hline : ∀ x ∈ header c :: rows.map (t.entry · c), x ∈ line c)
    (hring : m.IsRing .down (header c) (rows.map (t.entry · c))) :
    m'.IsRing .down (header c) ((if c ∈ r.2 then rows ++ [t.rows.length] else rows).map
      ((t.snoc r hlt hnodup).entry · c)) := by
  rw [Table.snoc_map_entry hmem, ← hsize]
  by_cases hcr : c ∈ r.2
  · rw [if_pos hcr]
    exact (h.bottom c hcr).isRing hline hring
  · rw [if_neg hcr]
    have hkept := fun x hx => h.kept c hc hcr x (hline x hx)
    exact hring.congr (hkept · · .down) (hkept · · .up)

/-- So does its size. -/
theorem Grown.size_snoc {rows : List Nat} (h : Grown m m' n line columns)
    (hsize : m.sizes[c]? = some rows.length) (i : Nat) :
    m'.sizes[c]? = some (if c ∈ columns then rows ++ [i] else rows).length := by
  refine (h.size c _ hsize).trans (congrArg some ?_)
  split
  · rw [List.length_append, List.length_singleton]
  · rfl

/-- An accepted row comes in below the rows of each of its columns. -/
theorem Shows.addRow {t : Table} {active : List Nat} {linked : Nat → List Nat}
    {r : Nat × List Nat} (h : m.Shows t active linked) (hadd : m.addRow r.1 r.2 = .ok m') :
    ∃ (hlt : ∀ c ∈ r.2, c < t.columnCount) (hnodup : r.2.Nodup),
      m'.Shows (t.snoc r hlt hnodup) active fun c =>
        if c ∈ r.2 then linked c ++ [t.rows.length] else linked c := by
  obtain ⟨hlt, hnodup, hlaid⟩ := h.toLaid.addRow hadd
  have hgrown := h.lanes.grown_of_addRow hadd
  exact ⟨hlt, hnodup, {
    toLaid := hlaid
    headers := h.headers.addRow hadd
    active_lt := h.active_lt
    column := fun c hc => hgrown.isRing_snoc hlt hnodup h.nodeCount hc (h.member c)
      (fun _ hx => hx) (h.column c hc)
    member := fun c => Table.snoc_member (h.member c)
    size := fun c hc => hgrown.size_snoc (h.size c hc) _
    small := fun c => by
      split
      next hc =>
        have hsmall := hgrown.room c hc
        rw [Full.iff_of_size (h.size c (hlt c hc)), Nat.not_le] at hsmall
        rwa [List.length_append, List.length_singleton]
      next => exact h.small c }⟩

/-- A row is accepted if it names different columns of the matrix that are not full. -/
theorem Shows.addRow_isOk {t : Table} {active : List Nat} {linked : Nat → List Nat}
    {r : Nat × List Nat} (h : m.Shows t active linked) (hlt : ∀ c ∈ r.2, c < t.columnCount)
    (hnodup : r.2.Nodup) (hsmall : ∀ c ∈ r.2, (linked c).length + 1 < wordBound) :
    ∃ m', m.addRow r.1 r.2 = .ok m' := by
  refine h.lanes.addRow_isOk hlt hnodup r.1 fun c hc => ?_
  rw [Full.iff_of_size (h.size c (hlt c hc)), Nat.not_le]
  exact hsmall c hc

/-! ## All rows -/

private theorem empty_nodes_size (n : Nat) : (empty n).nodes.size = n + 1 := by
  simp [empty, Nat.add_comm]

private theorem empty_root (n : Nat) : (empty n).nodes[0]? = some (freshRoot n) := by
  rw [empty, Array.getElem?_append_left (by simp)]
  rfl

private theorem empty_header {n c : Nat} (hc : c < n) :
    (empty n).nodes[c + 1]? = some (freshHeader n c) := by
  simp [empty, Array.getElem?_append, hc]

/-- Every index of a matrix without rows is the root or a header, and the next one follows it. -/
private theorem empty_joined {n i : Nat} (hi : i < n + 1) :
    (empty n).Joined .right i ((i + 1) % (n + 1)) := by
  -- to the right the indices count up, and the last one leads back to the root
  have hright : ∀ j < n + 1, (empty n).link .right j = some ((j + 1) % (n + 1)) := by
    intro j hj
    cases j with
    | zero =>
      simp only [link, empty_root, Option.map_some, Dir.link, freshRoot]
      by_cases hn : n = 0
      · subst hn
        rfl
      · rw [if_neg hn, Nat.mod_eq_of_lt (by omega)]
    | succ c =>
      simp only [link, empty_header (show c < n by omega), Option.map_some, Dir.link, freshHeader]
      by_cases hn : c + 1 = n
      · rw [if_pos hn, hn, Nat.mod_self]
        rfl
      · rw [if_neg hn, Nat.mod_eq_of_lt (by omega)]
  -- to the left they count down, and the root leads to the last one
  have hleft : ∀ j < n + 1, (empty n).link .left j = some (if j = 0 then n else j - 1) := by
    intro j hj
    cases j with
    | zero => simp only [link, empty_root, Option.map_some, Dir.link, freshRoot, if_pos]
    | succ c =>
      simp only [link, empty_header (show c < n by omega), Option.map_some, Dir.link, freshHeader]
      rfl
  refine ⟨hright i hi, ?_⟩
  rw [show Dir.right.back = Dir.left from rfl, hleft _ (Nat.mod_lt _ (Nat.succ_pos n))]
  by_cases hn : i = n
  · rw [hn, Nat.mod_self, if_pos rfl]
  · rw [Nat.mod_eq_of_lt (by omega), if_neg (Nat.succ_ne_zero i), Nat.add_sub_cancel]

/-- A matrix without rows shows the table without rows. -/
private theorem shows_empty {n : Nat} (hn : n + 1 < wordBound) :
    (empty n).Shows ⟨n, [], by simp, by simp, hn⟩ (List.range n) fun _ => [] where
  nodeCount := empty_nodes_size n
  sizeCount := Array.size_replicate
  rowCount := rfl
  headerRole c hc := by
    rw [role, header, empty_header hc]
    rfl
  entryRole i c hc := absurd hc List.not_mem_nil
  rowLinks i j hj := absurd hj (Nat.not_lt_zero j)
  headers := by
    have hnodes : root :: ((List.range n).map header) = List.range (n + 1) :=
      List.range_succ_eq_map.symm
    refine ⟨hnodes ▸ List.nodup_range, ?_⟩
    -- the indices count up and then start at the root again
    have hchain : root :: ((List.range n).map header ++ [root]) =
        (List.range (n + 2)).map (· % (n + 1)) := by
      rw [List.range_succ, List.map_append, ← List.cons_append, hnodes, List.map_singleton,
        Nat.mod_self]
      congr 1
      refine List.ext_getElem (by simp) fun i hi hi' => ?_
      rw [List.getElem_map, List.getElem_range, Nat.mod_eq_of_lt (by simpa using hi)]
    rw [hchain, List.isChain_map, List.isChain_range_succ]
    intro i hi
    rw [Nat.mod_eq_of_lt hi]
    exact empty_joined hi
  active_lt c hc := List.mem_range.mp hc
  column c hc := by
    refine ⟨List.nodup_singleton _, ?_⟩
    rw [List.map_nil, List.nil_append, List.isChain_pair]
    constructor <;> rw [link, header, empty_header hc] <;> rfl
  member c i hi := absurd hi List.not_mem_nil
  size c hc := by
    simp [empty, show c < n from hc]
  small _ := Nat.zero_lt_of_lt hn

/-- A row added before any column is covered. -/
theorem Covered.addRow {t : Table} {r : Nat × List Nat} (h : m.Covered t [])
    (hadd : m.addRow r.1 r.2 = .ok m') :
    ∃ (hlt : ∀ c ∈ r.2, c < t.columnCount) (hnodup : r.2.Nodup),
      m'.Covered (t.snoc r hlt hnodup) [] := by
  obtain ⟨hlt, hnodup, hshows⟩ := h.shows.addRow hadd
  rw [← Table.linked_snoc hlt hnodup] at hshows
  exact ⟨hlt, hnodup, hshows, List.nodup_nil, by simp⟩

/-- Adding the rows of a list one after the other. -/
private theorem Covered.addRows {t : Table} {rows : List (Nat × List Nat)} (h : m.Covered t [])
    (hadd : rows.foldlM (fun m r => m.addRow r.1 r.2) m = .ok m') :
    ∃ t' : Table, t'.columnCount = t.columnCount ∧ t'.rows = t.rows ++ rows ∧
      m'.Covered t' [] := by
  -- induction on the rows: each is added below those before it
  induction rows generalizing m t with
  | nil =>
    rw [List.foldlM_nil] at hadd
    cases hadd
    exact ⟨t, rfl, (List.append_nil _).symm, h⟩
  | cons r rows ih =>
    rw [List.foldlM_cons] at hadd
    obtain ⟨m₁, hrow, hadd⟩ := bind_eq_ok.mp hadd
    obtain ⟨hlt, hnodup, h₁⟩ := h.addRow hrow
    obtain ⟨t', hcount, hrows, h'⟩ := ih h₁ hadd
    refine ⟨t', hcount, ?_, h'⟩
    rw [hrows, Table.snoc, List.append_assoc]
    rfl

/-- A matrix without rows shows the table without rows, all columns active. -/
theorem covered_empty {n : Nat} (hn : n + 1 < wordBound) :
    (empty n).Covered ⟨n, [], by simp, by simp, hn⟩ [] := by
  refine ⟨?_, List.nodup_nil, by simp⟩
  convert shows_empty hn
  · exact Table.active_nil _
  · exact Table.linked_nil _ _

/-- A matrix can be created if words can number its headers. -/
theorem create_eq_ok_iff {n : Nat} : create n = .ok m ↔ n + 1 < wordBound ∧ m = empty n := by
  by_cases hn : n + 1 < wordBound
  · simp only [create, Word.add, hn, if_true, ok_bind, true_and]
    exact (Except.ok.injEq ..).to_iff.trans eq_comm
  · simp only [create, Word.add, hn, if_false, error_bind, false_and]
    refine iff_of_false (fun h => ?_) id
    cases h

/-- A matrix to which rows have been added shows the table of these rows, all columns active. -/
theorem covered_of_create {n : Nat} {rows : List (Nat × List Nat)} (hcreate : create n = .ok m)
    (hadd : rows.foldlM (fun m r => m.addRow r.1 r.2) m = .ok m') :
    ∃ t : Table, t.columnCount = n ∧ t.rows = rows ∧ m'.Covered t [] := by
  obtain ⟨hn, rfl⟩ := create_eq_ok_iff.mp hcreate
  exact (covered_empty hn).addRows hadd

/-- Rows that name different columns of the matrix are accepted, if they are not too many. -/
theorem Covered.addRows_isOk {t : Table} {rows : List (Nat × List Nat)} (h : m.Covered t [])
    (hlt : ∀ r ∈ rows, ∀ c ∈ r.2, c < t.columnCount) (hnodup : ∀ r ∈ rows, r.2.Nodup)
    (hfew : t.rows.length + rows.length < wordBound) :
    ∃ m', rows.foldlM (fun m r => m.addRow r.1 r.2) m = .ok m' := by
  -- induction on the rows: a column has room for one row more as long as rows are to come
  induction rows generalizing m t with
  | nil => exact ⟨m, rfl⟩
  | cons r rows ih =>
    rw [List.length_cons] at hfew
    -- a column has no more rows than the table
    have hsmall : ∀ c ∈ r.2, (t.linked [] c).length + 1 < wordBound := by
      intro c _
      have hle := List.length_filter_le (c ∈ t.columns ·) (List.range t.rows.length)
      rw [← Table.linked_nil, List.length_range] at hle
      omega
    obtain ⟨m₁, hadd⟩ := h.shows.addRow_isOk (hlt r (List.mem_cons_self ..))
      (hnodup r (List.mem_cons_self ..)) hsmall
    obtain ⟨hltr, hnodupr, h₁⟩ := h.addRow hadd
    obtain ⟨m', hm'⟩ := ih h₁ (fun r' hr' => hlt r' (List.mem_cons_of_mem r hr'))
      (fun r' hr' => hnodup r' (List.mem_cons_of_mem r hr'))
      (by simp only [Table.snoc, List.length_append, List.length_singleton]; omega)
    exact ⟨m', by rw [List.foldlM_cons, hadd, ok_bind, hm']⟩

end ExactCover.Matrix
