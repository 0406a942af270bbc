import ExactCover.Matrix.Ring
import ExactCover.Proofs.Matrix.Link

/-!
# Walks around rings

Reading a ring gives the list of its nodes. A walk that changes the matrix on the way visits the
nodes of that list, if its visits leave the ring alone; and if each visit can be undone, then the
walk the other way around undoes the whole walk.
-/

namespace ExactCover

/-- A computation that has succeeded goes on. -/
@[simp] theorem ok_bind {ε α β : Type} (a : α) (f : α → Except ε β) :
    (Except.ok a >>= f) = f a := rfl

/-- A computation that has failed does not go on. -/
@[simp] theorem error_bind {ε α β : Type} (e : ε) (f : α → Except ε β) :
    ((Except.error e : Except ε α) >>= f) = .error e := rfl

/-- A computation in two steps succeeds if both steps do. -/
theorem bind_eq_ok {ε α β : Type} {x : Except ε α} {f : α → Except ε β} {b : β} :
    x >>= f = .ok b ↔ ∃ a, x = .ok a ∧ f a = .ok b := by
  cases x with
  | ok a =>
    rw [ok_bind]
    exact ⟨fun h => ⟨a, rfl, h⟩, fun ⟨_, ha, h⟩ => Except.ok.inj ha ▸ h⟩
  | error e =>
    rw [error_bind]
    exact ⟨fun h => (by cases h), fun ⟨_, ha, _⟩ => (by cases ha)⟩

/-- A computation in two steps fails if the first step does, or the second one after it. -/
theorem bind_eq_error {ε α β : Type} {x : Except ε α} {f : α → Except ε β} {e : ε} :
    x >>= f = .error e ↔ x = .error e ∨ ∃ a, x = .ok a ∧ f a = .error e := by
  cases x with
  | ok a =>
    rw [ok_bind]
    exact ⟨fun h => .inr ⟨a, rfl, h⟩, fun h => h.elim nofun fun ⟨_, ha, h⟩ => Except.ok.inj ha ▸ h⟩
  | error e' =>
    rw [error_bind]
    exact ⟨fun h => .inl (congrArg _ (Except.error.inj h)),
      fun h => h.elim (fun h => congrArg _ (Except.error.inj h)) fun ⟨_, ha, _⟩ => nomatch ha⟩

/-- A computation that is known to succeed has a result. -/
theorem exists_of_isOk {ε α : Type} {x : Except ε α} (h : x.isOk = true) : ∃ a, x = .ok a := by
  cases x with
  | ok a => exact ⟨a, rfl⟩
  | error e => exact nomatch h

/-- What is known of the image of a result is known of the result. -/
theorem exists_of_map_eq_ok {ε α β : Type} {x : Except ε α} {f : α → β} {b : β}
    (h : x.map f = .ok b) : ∃ a, x = .ok a ∧ f a = b := by
  cases x with
  | ok a => exact ⟨a, rfl, Except.ok.inj h⟩
  | error e => exact nomatch h

namespace Matrix

/-! ## Reading nodes -/

/-- A node of the arena can be read. -/
theorem node_of_lt {m : Matrix} {i : Nat} (h : i < m.nodes.size) :
    m.node i = .ok m.nodes[i] := by
  rw [node, dif_pos h]

/-- A node of the arena has a link in every direction. -/
theorem link_of_lt {m : Matrix} {i : Nat} (h : i < m.nodes.size) (d : Dir) :
    m.link d i = some (d.link m.nodes[i]) := by
  rw [link, Array.getElem?_eq_getElem h, Option.map_some]

/-- A node with a link can be read, and bears the link. -/
theorem exists_node_of_link {m : Matrix} {d : Dir} {i v : Nat} (h : m.link d i = some v) :
    ∃ n, m.node i = .ok n ∧ d.link n = v := by
  have hi := lt_of_link h
  rw [link_of_lt hi] at h
  exact ⟨_, node_of_lt hi, Option.some.inj h⟩

/-- A node that has been read bears its links. -/
theorem link_of_node {m : Matrix} {i : Nat} {n : Node} (h : m.node i = .ok n) (d : Dir) :
    m.link d i = some (d.link n) := by
  rw [node] at h
  split at h
  next hi => rw [link_of_lt hi, Except.ok.inj h]
  next => exact nomatch h

/-- A node with a role can be read, and bears the role. -/
theorem exists_node_of_role {m : Matrix} {i : Nat} {r : Role} (h : m.role i = some r) :
    ∃ n, m.node i = .ok n ∧ n.role = r := by
  rw [role, Option.map_eq_some_iff] at h
  obtain ⟨n, hn, hr⟩ := h
  obtain ⟨hi, rfl⟩ := Array.getElem?_eq_some_iff.mp hn
  exact ⟨_, node_of_lt hi, hr⟩

/-- The column of a node that stands in one is read. -/
theorem columnOf_of_role {m : Matrix} {i c : Nat} {r : Role} (h : m.role i = some r)
    (hc : r.column? = some c) : m.columnOf i = .ok c := by
  obtain ⟨n, hn, rfl⟩ := exists_node_of_role h
  simp only [columnOf, hn, ok_bind, ownerOf, hc]

/-- The row of an entry is read. -/
theorem rowOf_of_role {m : Matrix} {i c row : Nat} (h : m.role i = some (.entry c row)) :
    m.rowOf i = .ok row := by
  obtain ⟨n, hn, hr⟩ := exists_node_of_role h
  simp only [rowOf, hn, ok_bind, hr, Role.row?]
  rfl

/-! ## Rings as lists -/

/-- Reading the rest of a ring, up to where it was entered. -/
private theorem ringFrom_eq {m : Matrix} {d : Dir} {s : Nat} {l : List Nat} {steps id : Nat}
    (hchain : (l ++ [s]).IsChain fun a b => m.link d a = some b) (hs : s ∉ l)
    (hsteps : l.length < steps) (hid : (l ++ [s]).head? = some id) :
    m.ringFrom d.link s steps id = .ok l := by
  -- induction on the nodes to come; there are more steps than nodes
  induction l generalizing steps id with
  | nil =>
    obtain ⟨k, rfl⟩ := Nat.exists_eq_add_one_of_ne_zero (Nat.ne_zero_of_lt hsteps)
    rw [List.nil_append, List.head?_cons, Option.some.injEq] at hid
    rw [ringFrom, if_pos hid.symm]
  | cons x l ih =>
    obtain ⟨k, rfl⟩ := Nat.exists_eq_add_one_of_ne_zero (Nat.ne_zero_of_lt hsteps)
    rw [List.cons_append, List.head?_cons, Option.some.injEq] at hid
    subst hid
    rw [List.mem_cons, not_or] at hs
    rw [List.cons_append, List.isChain_cons] at hchain
    obtain ⟨y, hy⟩ := exists_head?_concat l s
    obtain ⟨n, hn, rfl⟩ := exists_node_of_link (hchain.1 y hy)
    have hrest := ih hchain.2 hs.2 (by simpa using hsteps) hy
    simp only [ringFrom, if_neg (Ne.symm hs.1), hn, ok_bind, hrest]
    rfl

/-- Reading links that lead from `s` over the nodes of a list and back. -/
theorem ring_eq_of_chain {m : Matrix} {d : Dir} {s : Nat} {l : List Nat}
    (hchain : (s :: (l ++ [s])).IsChain fun a b => m.link d a = some b) (hs : s ∉ l)
    (hlength : l.length < m.nodes.size) : m.ring d.link s = .ok l := by
  rw [List.isChain_cons] at hchain
  obtain ⟨y, hy⟩ := exists_head?_concat l s
  obtain ⟨n, hn, rfl⟩ := exists_node_of_link (hchain.1 y hy)
  simp only [ring, hn, ok_bind]
  exact ringFrom_eq hchain.2 hs hlength hy

/-- Reading a ring gives the list of its nodes. -/
theorem IsRing.ring_eq {m : Matrix} {d : Dir} {s : Nat} {l : List Nat} (h : m.IsRing d s l) :
    m.ring d.link s = .ok l :=
  ring_eq_of_chain (h.chain.imp fun _ _ hab => hab.1) (List.nodup_cons.mp h.nodup).1 h.length_lt

/-! ## There and back -/

section Walk

variable {ι : Type} {f : ι → Nat} {d : Dir} {s : Nat} {l : List ι}
  {visit unvisit : Matrix → Nat → Except Fault Matrix} {P : List ι → Matrix → Prop}

/-- The walk over the rest of a ring, and the part of the walk back that undoes it. -/
private theorem walk_and_back
    (ring : ∀ done rest m, l = done ++ rest → P done m → m.IsRing d s (l.map f))
    (step : ∀ done x rest m, l = done ++ x :: rest → P done m →
      ∃ m', visit m (f x) = .ok m' ∧ P (done ++ [x]) m' ∧ unvisit m' (f x) = .ok m)
    {done rest : List ι} {m : Matrix} {steps id : Nat} (hl : l = done ++ rest) (hP : P done m)
    (hsteps : rest.length < steps) (hid : (rest.map f ++ [s]).head? = some id) :
    ∃ m', walk d.link visit s steps id m = .ok m' ∧ P l m' ∧
      ∀ k last prev, (s :: l.map f).getLast? = some last →
        (s :: done.map f).getLast? = some prev →
        walk d.back.link unvisit s (k + rest.length) last m' =
          walk d.back.link unvisit s k prev m := by
  -- induction on the rest: the walk back from the end comes to where the rest began
  induction rest generalizing done m steps id with
  | nil =>
    obtain ⟨k, rfl⟩ := Nat.exists_eq_add_one_of_ne_zero (Nat.ne_zero_of_lt hsteps)
    rw [List.map_nil, List.nil_append, List.head?_cons, Option.some.injEq] at hid
    rw [List.append_nil] at hl
    subst hl
    refine ⟨m, by rw [walk, if_pos hid.symm], hP, fun k last prev hlast hprev => ?_⟩
    -- the last node of the walk is the first one of the walk back
    rw [hlast, Option.some.injEq] at hprev
    rw [hprev, List.length_nil, Nat.add_zero]
  | cons x rest ih =>
    obtain ⟨k, rfl⟩ := Nat.exists_eq_add_one_of_ne_zero (Nat.ne_zero_of_lt hsteps)
    rw [List.map_cons, List.cons_append, List.head?_cons, Option.some.injEq] at hid
    subst hid
    obtain ⟨m₁, hvisit, hP₁, hunvisit⟩ := step done x rest m hl hP
    have hl₁ : l = (done ++ [x]) ++ rest := by rw [hl, List.append_assoc]; rfl
    obtain ⟨y, hy⟩ := exists_head?_concat (rest.map f) s
    obtain ⟨m', hwalk, hP', hback⟩ := ih hl₁ hP₁ (by simpa using hsteps) hy
    have hring := ring done (x :: rest) m hl hP
    have hring₁ := ring (done ++ [x]) rest m₁ hl₁ hP₁
    have hlast' : ∀ (l : List ι) x, (s :: (l ++ [x]).map f).getLast? = some (f x) := by
      intro l x
      rw [List.map_append, List.map_singleton, ← List.cons_append, List.getLast?_concat]
    -- the walk does not end here
    have hx : f x ≠ s := by
      intro heq
      refine (List.nodup_cons.mp hring.nodup).1 ?_
      rw [hl, ← heq]
      exact List.mem_map_of_mem (by simp)
    -- forth, and then back
    refine ⟨m', ?_, hP', fun k last prev hlast hprev => ?_⟩
    · -- the way on from `x` is read after the visit
      have hnext : m₁.link d (f x) = some y := by
        rw [hl₁, List.map_append] at hring₁
        exact (hring₁.joined (hlast' done x) hy).1
      obtain ⟨n, hn, rfl⟩ := exists_node_of_link hnext
      simp only [walk, if_neg hx, hvisit, ok_bind, hn]
      exact hwalk
    · -- the way back from `x` is read when the visit has been undone
      have hprev' : m.link d.back (f x) = some prev := by
        rw [hl, List.map_append] at hring
        exact (hring.joined hprev rfl).2
      obtain ⟨n, hn, rfl⟩ := exists_node_of_link hprev'
      have hlen : k + (x :: rest).length = (k + 1) + rest.length := by
        rw [List.length_cons]
        omega
      rw [hlen, hback (k + 1) last (f x) hlast (hlast' done x)]
      simp only [walk, if_neg hx, hunvisit, ok_bind, hn]

/-- A walk around a ring visits all its nodes. If each visit leaves the ring alone and can be
    undone, then the walk the other way around undoes the walk. `P done m` says what the matrix
    is like when the nodes of `done` have been visited. -/
theorem around_and_back
    (ring : ∀ done rest m, l = done ++ rest → P done m → m.IsRing d s (l.map f))
    (step : ∀ done x rest m, l = done ++ x :: rest → P done m →
      ∃ m', visit m (f x) = .ok m' ∧ P (done ++ [x]) m' ∧ unvisit m' (f x) = .ok m)
    {m : Matrix} (hP : P [] m) :
    ∃ m', m.around d.link s visit = .ok m' ∧ P l m' ∧
      m'.around d.back.link s unvisit = .ok m := by
  have hring := ring [] l m rfl hP
  -- the walk starts at the first node of the ring, and back at the last one
  obtain ⟨y, hy⟩ := exists_head?_concat (l.map f) s
  obtain ⟨m', hwalk, hP', hback⟩ :=
    walk_and_back ring step rfl hP (by simpa using hring.length_lt) hy
  have hring' := ring l [] m' (by simp) hP'
  obtain ⟨z, hz⟩ : ∃ z, (s :: l.map f).getLast? = some z :=
    ⟨_, List.getLast?_eq_some_getLast (List.cons_ne_nil s _)⟩
  refine ⟨m', ?_, hP', ?_⟩
  · have hnext : m.link d s = some y := hring.link_start hy
    obtain ⟨n, hn, rfl⟩ := exists_node_of_link hnext
    simp only [around, hn, ok_bind]
    exact hwalk
  · have hprev : m'.link d.back s = some z := by
      rw [← List.append_nil (l.map f)] at hring'
      exact (hring'.joined hz rfl).2
    obtain ⟨n, hn, rfl⟩ := exists_node_of_link hprev
    simp only [around, hn, ok_bind]
    have hlen := hring'.length_lt
    rw [List.length_map] at hlen
    obtain ⟨k, hk⟩ : ∃ k, m'.nodes.size = (k + 1) + l.length :=
      ⟨m'.nodes.size - l.length - 1, by omega⟩
    -- one more step than there are nodes is needed to see the start again
    rw [hk, hback (k + 1) _ s hz rfl, walk, if_pos rfl]

end Walk

end Matrix
end ExactCover
