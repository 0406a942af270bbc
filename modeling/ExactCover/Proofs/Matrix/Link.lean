import ExactCover.Matrix.Cover
import Mathlib.Data.List.Chain
import Mathlib.Data.List.Nodup

/-!
# Doubly linked rings

A node is linked in four directions, and the rings of a matrix come in two kinds: those that are
followed down and back up, and those that are followed right and back left. This file treats both
at once, by a direction `d` and its opposite `d.back`.

## Key results

- `IsRing.unlink`, `IsRing.erase`: joining the two neighbours of a node takes it out of its ring
- `splice_splice`: writing the node between them again restores the matrix exactly
- `IsRing.append`: a new node comes in at the end of a ring
-/

namespace ExactCover

/-- The directions in which a node is linked. -/
inductive Dir where
  | left
  | right
  | up
  | down
  deriving DecidableEq, Repr

namespace Dir

/-- The opposite direction. -/
def back : Dir → Dir
  | left => right
  | right => left
  | up => down
  | down => up

/-- The neighbour of a node in a direction. -/
def link : Dir → Node → Nat
  | left => Node.left
  | right => Node.right
  | up => Node.up
  | down => Node.down

/-- Changes the neighbour in a direction. -/
def set (d : Dir) (v : Nat) (n : Node) : Node :=
  match d with
  | left => { n with left := v }
  | right => { n with right := v }
  | up => { n with up := v }
  | down => { n with down := v }

/-- Turning around twice changes nothing. -/
@[simp] theorem back_back (d : Dir) : d.back.back = d := by cases d <;> rfl

/-- The opposite direction is another one. -/
@[simp] theorem back_ne (d : Dir) : d.back ≠ d := by cases d <;> decide

@[simp] theorem ne_back (d : Dir) : d ≠ d.back := by cases d <;> decide

/-- The link that has been set is read. -/
@[simp] theorem link_set_self (d : Dir) (v : Nat) (n : Node) : d.link (d.set v n) = v := by
  cases d <;> rfl

/-- Setting a link leaves the links in other directions alone. -/
private theorem link_set_of_ne {d e : Dir} (h : e ≠ d) (v : Nat) (n : Node) :
    e.link (d.set v n) = e.link n := by
  -- a pair of directions at a time: another link is read, or the two are the same
  cases d <;> cases e <;> first | rfl | exact absurd rfl h

/-- Setting a link changes no role. -/
@[simp] theorem role_set (d : Dir) (v : Nat) (n : Node) : (d.set v n).role = n.role := by
  cases d <;> rfl

end Dir

/-- A node is known by its links and its role. -/
private theorem Node.ext_link {n k : Node} (hlink : ∀ d : Dir, d.link n = d.link k)
    (hrole : n.role = k.role) : n = k := by
  cases n; cases k
  simp only [Node.mk.injEq]
  exact ⟨hlink .left, hlink .right, hlink .up, hlink .down, hrole⟩

namespace Matrix

/-- The neighbour of a node in a direction, if there is such a node. -/
def link (m : Matrix) (d : Dir) (id : Nat) : Option Nat := m.nodes[id]?.map d.link

/-- The role of a node, if there is such a node. -/
def role (m : Matrix) (id : Nat) : Option Role := m.nodes[id]?.map Node.role

/-- Writes one link. -/
def write (m : Matrix) (d : Dir) (id v : Nat) : Matrix :=
  { m with nodes := m.nodes.modify id (d.set v) }

/-! ## Reading after writing -/

/-- Writing a link adds no node. -/
@[simp] theorem write_nodes_size (m : Matrix) (d : Dir) (i v : Nat) :
    (m.write d i v).nodes.size = m.nodes.size := by
  simp only [write, Array.size_modify]

/-- Writing a link changes no role. -/
@[simp] theorem write_role (m : Matrix) (d : Dir) (i v j : Nat) :
    (m.write d i v).role j = m.role j := by
  simp only [role, write, Array.getElem?_modify]
  split
  · subst i
    cases m.nodes[j]? <;> simp
  · rfl

/-- The link that has been written is read. -/
theorem link_write_self {m : Matrix} {i : Nat} (h : i < m.nodes.size) (d : Dir) (v : Nat) :
    (m.write d i v).link d i = some v := by
  simp [link, write, Array.getElem?_modify, Array.getElem?_eq_getElem h]

/-- Writing a link leaves other nodes alone. -/
theorem link_write_of_ne {m : Matrix} {i j : Nat} (h : j ≠ i) (d e : Dir) (v : Nat) :
    (m.write d i v).link e j = m.link e j := by
  simp only [link, write, Array.getElem?_modify, if_neg (Ne.symm h)]

/-- Writing a link leaves other directions alone, at the same node as well. -/
private theorem link_write_of_dir_ne {m : Matrix} {d e : Dir} (h : e ≠ d) (i j v : Nat) :
    (m.write d i v).link e j = m.link e j := by
  simp only [link, write, Array.getElem?_modify]
  split
  · subst i
    cases m.nodes[j]? <;> simp [Dir.link_set_of_ne h]
  · rfl

/-- A node with a link is a node of the matrix. -/
theorem lt_of_link {m : Matrix} {d : Dir} {i v : Nat} (h : m.link d i = some v) :
    i < m.nodes.size := by
  rw [link, Option.map_eq_some_iff] at h
  obtain ⟨n, hn, -⟩ := h
  exact (Array.getElem?_eq_some_iff.mp hn).1

/-- A node with a role is a node of the matrix. -/
theorem lt_of_role {m : Matrix} {i : Nat} {r : Role} (h : m.role i = some r) :
    i < m.nodes.size := by
  rw [role, Option.map_eq_some_iff] at h
  obtain ⟨n, hn, -⟩ := h
  exact (Array.getElem?_eq_some_iff.mp hn).1

/-- A matrix is known by its links, its roles, its sizes and its number of rows. -/
private theorem ext_link {m k : Matrix} (hsize : m.nodes.size = k.nodes.size)
    (hlink : ∀ d i, m.link d i = k.link d i) (hrole : ∀ i, m.role i = k.role i)
    (hsizes : m.sizes = k.sizes) (hrows : m.rowCount = k.rowCount) : m = k := by
  obtain ⟨nodes, sizes, rowCount⟩ := m
  obtain ⟨nodes', sizes', rowCount'⟩ := k
  simp only at hsize hsizes hrows
  subst hsizes hrows
  simp only [mk.injEq, and_self, and_true]
  -- node by node, and at each of them link by link
  refine Array.ext hsize fun i hi hi' => Node.ext_link (fun d => ?_) ?_
  · simpa [link, Array.getElem?_eq_getElem hi, Array.getElem?_eq_getElem hi'] using hlink d i
  · simpa [role, Array.getElem?_eq_getElem hi, Array.getElem?_eq_getElem hi'] using hrole i

/-! ## Rings -/

/-- The link from `a` in direction `d` leads to `b`, and the link back leads to `a`. -/
def Joined (m : Matrix) (d : Dir) (a b : Nat) : Prop :=
  m.link d a = some b ∧ m.link d.back b = some a

/-- The nodes but `start` of the ring through `start` are those of `l`, in the order in which
    direction `d` meets them, and the opposite direction meets them in the opposite order. -/
structure IsRing (m : Matrix) (d : Dir) (start : Nat) (l : List Nat) : Prop where
  nodup : (start :: l).Nodup
  chain : (start :: (l ++ [start])).IsChain (m.Joined d)

/-- Every node of a ring is a node of the matrix. -/
theorem IsRing.lt {m : Matrix} {d : Dir} {s i : Nat} {l : List Nat} (h : m.IsRing d s l)
    (hi : i ∈ s :: l) : i < m.nodes.size := by
  -- some step of the closed ring starts at the node
  obtain ⟨xs, ys, hxy⟩ := List.append_of_mem hi
  obtain ⟨y, zs, hyz⟩ : ∃ y zs, ys ++ [s] = y :: zs := by
    cases ys <;> exact ⟨_, _, rfl⟩
  have hchain := h.chain
  rw [← List.cons_append, hxy, List.append_assoc, List.cons_append, hyz,
    List.isChain_append_cons_cons] at hchain
  exact lt_of_link hchain.2.1.1

/-- A ring has fewer nodes than the matrix. -/
theorem IsRing.length_lt {m : Matrix} {d : Dir} {s : Nat} {l : List Nat} (h : m.IsRing d s l) :
    l.length < m.nodes.size := by
  have hsub : s :: l ⊆ List.range m.nodes.size := fun i hi => List.mem_range.mpr (h.lt hi)
  have hle := List.Nodup.length_le_of_subset h.nodup hsub
  rw [List.length_cons, List.length_range] at hle
  omega

/-- Two neighbours in a ring are joined. -/
theorem IsRing.joined {m : Matrix} {d : Dir} {s x y : Nat} {l₁ l₂ : List Nat}
    (h : m.IsRing d s (l₁ ++ l₂)) (hx : (s :: l₁).getLast? = some x)
    (hy : (l₂ ++ [s]).head? = some y) : m.Joined d x y := by
  have hchain := h.chain
  rw [List.append_assoc, ← List.cons_append, List.isChain_append] at hchain
  exact hchain.2.2 x hx y hy

/-- Behind the nodes of a ring comes its start, so there always is a next one. -/
theorem exists_head?_concat (l : List Nat) (s : Nat) : ∃ y, (l ++ [s]).head? = some y := by
  cases l <;> exact ⟨_, rfl⟩

/-- The closed ring has no further nodes. -/
theorem mem_of_mem_closed {l : List Nat} {s x : Nat} (h : x ∈ s :: (l ++ [s])) : x ∈ s :: l := by
  simp only [List.mem_cons, List.mem_append, List.not_mem_nil, or_false] at h ⊢
  exact h.elim .inl .symm

/-- Only the links of its nodes make a ring. -/
theorem IsRing.congr {m m' : Matrix} {d : Dir} {s : Nat} {l : List Nat} (h : m.IsRing d s l)
    (hnext : ∀ x ∈ s :: l, m'.link d x = m.link d x)
    (hprev : ∀ x ∈ s :: l, m'.link d.back x = m.link d.back x) : m'.IsRing d s l where
  nodup := h.nodup
  chain := h.chain.imp_of_mem_imp fun a b ha hb hab =>
    ⟨(hnext a (mem_of_mem_closed ha)).trans hab.1, (hprev b (mem_of_mem_closed hb)).trans hab.2⟩

/-- The first step around a ring leads from its start to the first of its nodes. -/
theorem IsRing.link_start {m : Matrix} {d : Dir} {s y : Nat} {l : List Nat} (h : m.IsRing d s l)
    (hy : (l ++ [s]).head? = some y) : m.link d s = some y := by
  have hchain := h.chain
  rw [List.isChain_cons] at hchain
  exact (hchain.1 y hy).1

/-- A ring is a ring in the opposite direction. -/
theorem IsRing.reverse {m : Matrix} {d : Dir} {s : Nat} {l : List Nat} (h : m.IsRing d s l) :
    m.IsRing d.back s l.reverse := by
  refine ⟨?_, ?_⟩
  · rw [List.nodup_cons, List.mem_reverse, List.nodup_reverse]
    exact List.nodup_cons.mp h.nodup
  -- the list from the start to the start, read backwards
  · have hlist : s :: (l.reverse ++ [s]) = (s :: (l ++ [s])).reverse := by simp
    rw [hlist, List.isChain_reverse]
    refine h.chain.imp fun a b hab => ⟨hab.2, ?_⟩
    rw [Dir.back_back]
    exact hab.1

/-- Writing a link forth leaves a chain alone that does not start a step there. -/
private theorem isChain_write {m : Matrix} {d : Dir} {i v : Nat} {l : List Nat}
    (h : l.IsChain (m.Joined d)) (hi : i ∉ l.dropLast) :
    l.IsChain ((m.write d i v).Joined d) := by
  -- only the node that starts a step is read in direction `d`
  induction l with
  | nil => exact .nil
  | cons a l ih =>
    cases l with
    | nil => exact .singleton a
    | cons b l =>
      rw [List.dropLast_cons_cons, List.mem_cons, not_or] at hi
      rw [List.isChain_cons_cons] at h ⊢
      refine ⟨⟨?_, ?_⟩, ih h.2 hi.2⟩
      · rw [link_write_of_ne (Ne.symm hi.1)]
        exact h.1.1
      · rw [link_write_of_dir_ne (Dir.back_ne d)]
        exact h.1.2

/-- Writing a link back leaves a chain alone that does not end a step there. -/
private theorem isChain_write_back {m : Matrix} {d : Dir} {i v : Nat} {l : List Nat}
    (h : l.IsChain (m.Joined d)) (hi : i ∉ l.tail) :
    l.IsChain ((m.write d.back i v).Joined d) := by
  -- only the node that ends a step is read in the direction back
  refine h.imp_of_mem_tail_imp fun a b _ hb hab => ⟨?_, ?_⟩
  -- the link forth is in another direction
  · rw [link_write_of_dir_ne (Dir.ne_back d)]
    exact hab.1
  -- the link back is that of another node
  · have hne : b ≠ i := fun heq => hi (heq ▸ hb)
    rw [link_write_of_ne hne]
    exact hab.2

/-! ## Taking a node out of a ring and putting it in -/

/-- Makes `v` the successor of `p` and `w` the predecessor of `q`. -/
def splice (m : Matrix) (d : Dir) (p v q w : Nat) : Matrix :=
  (m.write d p v).write d.back q w

@[simp] theorem splice_role (m : Matrix) (d : Dir) (p v q w i : Nat) :
    (m.splice d p v q w).role i = m.role i := by
  rw [splice, write_role, write_role]

@[simp] theorem splice_nodes_size (m : Matrix) (d : Dir) (p v q w : Nat) :
    (m.splice d p v q w).nodes.size = m.nodes.size := by
  rw [splice, write_nodes_size, write_nodes_size]

@[simp] theorem splice_sizes (m : Matrix) (d : Dir) (p v q w : Nat) :
    (m.splice d p v q w).sizes = m.sizes := rfl

/-- `splice` writes links in its own two directions only. -/
theorem link_splice_of_dir_ne (m : Matrix) {d e : Dir} (h : e ≠ d) (h' : e ≠ d.back)
    (p v q w i : Nat) : (m.splice d p v q w).link e i = m.link e i := by
  rw [splice, link_write_of_dir_ne h', link_write_of_dir_ne h]

/-- `splice` leaves the links of other nodes alone. -/
theorem link_splice_of_ne {m : Matrix} {i p q : Nat} (hp : i ≠ p) (hq : i ≠ q) (d e : Dir)
    (v w : Nat) : (m.splice d p v q w).link e i = m.link e i := by
  rw [splice, link_write_of_ne hq, link_write_of_ne hp]

/-- In its own direction `splice` does what its first write does. -/
theorem link_splice (m : Matrix) (d : Dir) (p v q w i : Nat) :
    (m.splice d p v q w).link d i = (m.write d p v).link d i := by
  rw [splice, link_write_of_dir_ne (Dir.ne_back d)]

/-- In the opposite direction `splice` changes the second node only. -/
theorem link_splice_back {m : Matrix} {i q : Nat} (h : i ≠ q) (d : Dir) (p v w : Nat) :
    (m.splice d p v q w).link d.back i = m.link d.back i := by
  rw [splice, link_write_of_ne h, link_write_of_dir_ne (Dir.back_ne d)]

/-- In the opposite direction the second node gets the link meant for it. -/
theorem link_splice_back_self {m : Matrix} {q : Nat} (h : q < m.nodes.size) (d : Dir)
    (p v w : Nat) : (m.splice d p v q w).link d.back q = some w :=
  link_write_self (by simpa using h) d.back w

/-- `splice` leaves a chain alone that starts no step at `p` and ends none at `q`. -/
private theorem isChain_splice {m : Matrix} {d : Dir} {p v q w : Nat} {l : List Nat}
    (h : l.IsChain (m.Joined d)) (hp : p ∉ l.dropLast) (hq : q ∉ l.tail) :
    l.IsChain ((m.splice d p v q w).Joined d) :=
  isChain_write_back (isChain_write h hp) hq

/-- `splice` leaves a ring alone that meets neither of the two nodes. -/
theorem IsRing.splice {m : Matrix} {d : Dir} {s p q : Nat} {l : List Nat} (h : m.IsRing d s l)
    (hp : p ∉ s :: l) (hq : q ∉ s :: l) (v w : Nat) : (m.splice d p v q w).IsRing d s l where
  nodup := h.nodup
  chain := isChain_splice h.chain
    (by rw [← List.cons_append, List.dropLast_concat]; exact hp) (by grind)

/-- `splice` in other directions leaves a joint alone. -/
theorem Joined.splice_of_dir_ne {m : Matrix} {d e : Dir} {a b : Nat} (h : m.Joined e a b)
    (hd : e ≠ d) (hb : e ≠ d.back) (p v q w : Nat) : (m.splice d p v q w).Joined e a b := by
  refine ⟨?_, ?_⟩
  · rw [link_splice_of_dir_ne m hd hb]
    exact h.1
  -- a direction is the opposite of the opposite one
  · rw [link_splice_of_dir_ne m (fun he => hb (by rw [← he, Dir.back_back]))
      (fun he => hd (by rw [← e.back_back, he, Dir.back_back]))]
    exact h.2

/-- `splice` in other directions leaves a ring alone. -/
theorem IsRing.splice_of_dir_ne {m : Matrix} {d e : Dir} {s : Nat} {l : List Nat}
    (h : m.IsRing e s l) (hd : e ≠ d) (hb : e ≠ d.back) (p v q w : Nat) :
    (m.splice d p v q w).IsRing e s l :=
  ⟨h.nodup, h.chain.imp fun _ _ hab => hab.splice_of_dir_ne hd hb p v q w⟩

/-- A node whose neighbours are joined to each other keeps its own links. -/
theorem Joined.link_splice {m : Matrix} {d : Dir} {p x q : Nat} (hpx : m.Joined d p x)
    (hxq : m.Joined d x q) (hp : x ≠ p) (hq : x ≠ q) :
    (m.splice d p q q p).link d.back x = some p ∧ (m.splice d p q q p).link d x = some q := by
  rw [link_splice_back hq, Matrix.link_splice, link_write_of_ne hp]
  exact ⟨hpx.2, hxq.1⟩

/-- A node that has left its ring keeps its own links, and writing it between its neighbours
    again restores the matrix exactly. -/
theorem splice_splice {m : Matrix} {d : Dir} {p x q : Nat} (hpx : m.Joined d p x)
    (hxq : m.Joined d x q) : (m.splice d p q q p).splice d p x q x = m := by
  have hp : p < m.nodes.size := lt_of_link hpx.1
  have hq : q < m.nodes.size := lt_of_link hxq.2
  refine ext_link (by simp) (fun e i => ?_) (by simp) rfl rfl
  -- the second `splice` writes where the first one has written, so all other links agree
  by_cases he : e = d
  -- in direction `d` only the link of `p` has been written
  · subst he
    rw [link_splice]
    by_cases hi : i = p
    · subst hi
      rw [link_write_self (by simpa using hp)]
      exact hpx.1.symm
    · rw [link_write_of_ne hi, link_splice, link_write_of_ne hi]
  · by_cases hb : e = d.back
    · subst hb
      by_cases hi : i = q
      -- the link back of `q` led to `x`, and does so again
      · subst hi
        rw [link_splice_back_self (by simpa using hq)]
        exact hxq.2.symm
      · rw [link_splice_back hi, link_splice_back hi]
    · rw [link_splice_of_dir_ne _ he hb, link_splice_of_dir_ne _ he hb]

/-- A node of a ring has a predecessor `p` and a successor `q`, and joining these two takes it
    out of the ring. -/
theorem IsRing.unlink {m : Matrix} {d : Dir} {s x : Nat} {l₁ l₂ : List Nat}
    (h : m.IsRing d s (l₁ ++ x :: l₂)) :
    ∃ p q, m.Joined d p x ∧ m.Joined d x q ∧
      p ∈ s :: (l₁ ++ l₂) ∧ q ∈ s :: (l₁ ++ l₂) ∧
      (m.splice d p q q p).IsRing d s (l₁ ++ l₂) := by
  -- the ring is cut open before and behind `x`
  obtain ⟨as, p, hp⟩ : ∃ as p, s :: l₁ = as ++ [p] :=
    ⟨_, _, (List.dropLast_append_getLast (List.cons_ne_nil s l₁)).symm⟩
  obtain ⟨q, bs, hq⟩ : ∃ q bs, l₂ ++ [s] = q :: bs := by
    cases l₂ <;> exact ⟨_, _, rfl⟩
  have hwhole : s :: ((l₁ ++ x :: l₂) ++ [s]) = as ++ p :: x :: q :: bs := by
    rw [List.append_assoc, List.cons_append, hq, ← List.cons_append, hp, List.append_assoc]
    rfl
  -- without `x` the two parts meet
  have hrest : s :: ((l₁ ++ l₂) ++ [s]) = as ++ p :: q :: bs := by
    rw [List.append_assoc, hq, ← List.cons_append, hp, List.append_assoc]
    rfl
  have hchain := h.chain
  rw [hwhole, List.isChain_append_cons_cons, List.isChain_cons_cons] at hchain
  obtain ⟨hbefore, hpx, hxq, hbehind⟩ := hchain
  have hnodup : (s :: (l₁ ++ l₂)).Nodup :=
    h.nodup.sublist (.cons_cons s (.append_left (List.sublist_cons_self x l₂) l₁))
  have hmemp : p ∈ s :: l₁ := by rw [hp]; simp
  have hmemq : q ∈ l₂ ++ [s] := by rw [hq]; simp
  refine ⟨p, q, hpx, hxq, by grind, by grind, hnodup, ?_⟩
  rw [hrest, List.isChain_append_cons_cons]
  -- no step before `p` or behind `q` is written over, and the two are joined now
  refine ⟨isChain_splice hbefore ?_ ?_, ⟨?_, ?_⟩, isChain_splice hbehind ?_ ?_⟩
  · have : (as ++ [p]).Nodup := hp ▸ by grind
    grind
  · rw [← hp, List.tail_cons]
    grind
  · rw [link_splice]
    exact link_write_self (lt_of_link hpx.1) d q
  · exact link_splice_back_self (lt_of_link hxq.2) d p q p
  · rw [← hq, List.dropLast_concat]
    grind
  · have : (q :: bs).Nodup := hq ▸ by grind
    grind

/-- A number that a list has once stands in one part of it. -/
theorem not_mem_of_nodup_append {l₁ l₂ : List Nat} {x : Nat} (h : (l₁ ++ x :: l₂).Nodup) :
    x ∉ l₁ := fun hmem =>
  (List.nodup_append.mp h).2.2 x hmem x (List.mem_cons_self ..) rfl

/-- A named node of a ring leaves it. The ring is then the ring of the other names, and the node
    is none of theirs. -/
theorem IsRing.erase {m : Matrix} {d : Dir} {s i : Nat} {l : List Nat} {f : Nat → Nat}
    (h : m.IsRing d s (l.map f)) (hi : i ∈ l) :
    ∃ p q, m.Joined d p (f i) ∧ m.Joined d (f i) q ∧
      p ∈ s :: (l.erase i).map f ∧ q ∈ s :: (l.erase i).map f ∧
      f i ∉ s :: (l.erase i).map f ∧
      (m.splice d p q q p).IsRing d s ((l.erase i).map f) := by
  -- the name stands once in the list, so its node is the only one to go
  obtain ⟨l₁, l₂, rfl⟩ := List.append_of_mem hi
  have hnodup := (List.nodup_cons.mp h.nodup).2.of_map
  rw [List.erase_append_right _ (not_mem_of_nodup_append hnodup), List.erase_cons_head, List.map_append]
  rw [List.map_append, List.map_cons] at h
  obtain ⟨p, q, hpx, hxq, hp, hq, hring⟩ := h.unlink
  have hmiddle := List.nodup_middle.mp (List.cons_append ▸ h.nodup)
  exact ⟨p, q, hpx, hxq, hp, hq, (List.nodup_cons.mp hmiddle).1, hring⟩

/-! ## New nodes -/

/-- Puts a node behind all others. -/
def push (m : Matrix) (n : Node) : Matrix := { m with nodes := m.nodes.push n }

/-- One more node. -/
@[simp] theorem push_nodes_size (m : Matrix) (n : Node) :
    (m.push n).nodes.size = m.nodes.size + 1 := Array.size_push n

/-- The new node has its own links. -/
theorem link_push_self (m : Matrix) (n : Node) (d : Dir) :
    (m.push n).link d m.nodes.size = some (d.link n) := by
  simp [link, push]

/-- A new node leaves the links of the others alone. -/
theorem link_push_of_lt {m : Matrix} {i : Nat} (h : i < m.nodes.size) (n : Node) (d : Dir) :
    (m.push n).link d i = m.link d i := by
  simp only [link, push, Array.getElem?_push_lt h, Array.getElem?_eq_getElem h]

/-- The new node has its own role. -/
theorem role_push_self (m : Matrix) (n : Node) :
    (m.push n).role m.nodes.size = some n.role := by
  simp [role, push]

/-- A new node leaves the roles of the others alone. -/
theorem role_push_of_lt {m : Matrix} {i : Nat} (h : i < m.nodes.size) (n : Node) :
    (m.push n).role i = m.role i := by
  simp only [role, push, Array.getElem?_push_lt h, Array.getElem?_eq_getElem h]

/-- A new node leaves a joint alone. -/
theorem Joined.push {m : Matrix} {d : Dir} {a b : Nat} (h : m.Joined d a b) (n : Node) :
    (m.push n).Joined d a b := by
  refine ⟨?_, ?_⟩
  · rw [link_push_of_lt (lt_of_link h.1)]
    exact h.1
  · rw [link_push_of_lt (lt_of_link h.2)]
    exact h.2

/-- A new node leaves a ring alone. -/
theorem IsRing.push {m : Matrix} {d : Dir} {s : Nat} {l : List Nat} (h : m.IsRing d s l)
    (n : Node) : (m.push n).IsRing d s l :=
  ⟨h.nodup, h.chain.imp fun _ _ hab => hab.push n⟩

/-- A new node whose own links name the last node `p` of a ring and its start comes in between
    the two. -/
theorem IsRing.append {m : Matrix} {d : Dir} {s p : Nat} {l : List Nat} {n : Node}
    (h : m.IsRing d s l) (hp : m.link d.back s = some p) (hback : d.back.link n = p)
    (hnext : d.link n = s) :
    ((m.push n).splice d p m.nodes.size s m.nodes.size).IsRing d s (l ++ [m.nodes.size]) := by
  obtain ⟨as, p', hl⟩ : ∃ as p, s :: l = as ++ [p] :=
    ⟨_, _, (List.dropLast_append_getLast (List.cons_ne_nil s l)).symm⟩
  have hwhole : s :: (l ++ [s]) = as ++ p' :: [s] := by
    rw [← List.cons_append, hl, List.append_assoc]
    rfl
  have hnew : s :: ((l ++ [m.nodes.size]) ++ [s]) = as ++ p' :: m.nodes.size :: [s] := by
    rw [List.append_assoc, ← List.cons_append, hl, List.append_assoc]
    rfl
  have hchain := (h.push n).chain
  rw [hwhole, List.isChain_append_cons_cons] at hchain
  obtain ⟨hbefore, hlast, -⟩ := hchain
  have hs : s < m.nodes.size := h.lt (List.mem_cons_self ..)
  -- the link back from the start tells which node is the last
  have heq : p' = p := by
    have hlink := hlast.2
    rw [link_push_of_lt hs, hp] at hlink
    exact (Option.some.inj hlink).symm
  subst heq
  -- the new node is none of the ring
  have hfresh : ∀ i ∈ s :: l, i ≠ m.nodes.size := fun i hi => Nat.ne_of_lt (h.lt hi)
  have hmem : p' ∈ s :: l := by rw [hl]; simp
  have hp' := hfresh p' hmem
  have hnodup := h.nodup
  refine ⟨by grind, ?_⟩
  -- one step of the ring becomes two, from the last node to the new one and on to the start
  rw [hnew, List.isChain_append_cons_cons]
  refine ⟨isChain_splice hbefore ?_ ?_, ⟨?_, ?_⟩, ?_⟩
  · have : (as ++ [p']).Nodup := hl ▸ hnodup
    grind
  · rw [← hl, List.tail_cons]
    grind
  · rw [link_splice]
    exact link_write_self (lt_of_link hlast.1) d _
  · rw [link_splice_back (Ne.symm (Nat.ne_of_lt hs)), link_push_self, hback]
  · rw [List.isChain_pair]
    refine ⟨?_, link_splice_back_self (by rw [push_nodes_size]; omega) ..⟩
    rw [link_splice, link_write_of_ne (Ne.symm hp'), link_push_self, hnext]

end Matrix
end ExactCover
