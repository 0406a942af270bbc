import ExactCover.Proofs.Matrix.Splice
import Mathlib.Data.Set.Insert

/-!
# Links that climb

Nodes that leave their rings and come back in any order may leave links behind that are not undone
by the link back. But such links still run along the line of the nodes they began with: forth to a
larger node or back to the start, and back to a smaller node. This is kept by every `splice` that
respects the order, whether its two nodes are neighbours or not, and it is enough for every walk
along the links to end.

## Key results

- `Climbs.splice`: new links that respect the order
- `Climbs.exists_round`: the way from the start up and back to it
- `walk_leads`, `around_leads`: a walk that changes the matrix on the way comes to its end
-/

namespace ExactCover.Matrix

/-- The links of the nodes of `line` stay in it. In direction `d` they lead to a larger node or to
    `s`, and in the opposite direction to a smaller node, unless they leave from `s`. -/
structure Climbs (m : Matrix) (d : Dir) (s : Nat) (line : Set Nat) : Prop where
  start : s ∈ line
  least : ∀ x ∈ line, s ≤ x
  next : ∀ x ∈ line, ∃ y ∈ line, m.link d x = some y ∧ (y = s ∨ x < y)
  prev : ∀ x ∈ line, ∃ y ∈ line, m.link d.back x = some y ∧ (x = s ∨ y < x)

/-- The links in direction `d` lead from `s` up the nodes of `l` and then back to `s`. The links in
    the opposite direction may lead anywhere. -/
structure Round (m : Matrix) (d : Dir) (s : Nat) (l : List Nat) : Prop where
  chain : (s :: (l ++ [s])).IsChain fun a b => m.link d a = some b
  sorted : (s :: l).Pairwise (· < ·)
  lt : ∀ x ∈ s :: l, x < m.nodes.size

/-- The way around does not meet its start in between. -/
theorem Round.not_mem {m : Matrix} {d : Dir} {s : Nat} {l : List Nat} (h : m.Round d s l) :
    s ∉ l := fun hs => Nat.lt_irrefl s ((List.pairwise_cons.mp h.sorted).1 s hs)

/-- The way around has fewer nodes than the matrix. -/
theorem Round.length_lt {m : Matrix} {d : Dir} {s : Nat} {l : List Nat} (h : m.Round d s l) :
    l.length < m.nodes.size := by
  have hsub : s :: l ⊆ List.range m.nodes.size := fun x hx => List.mem_range.mpr (h.lt x hx)
  have hle := List.Nodup.length_le_of_subset (h.sorted.imp Nat.ne_of_lt) hsub
  rwa [List.length_cons, List.length_range] at hle

/-- Only the links forth of its nodes make a way around. -/
theorem Round.congr {m m' : Matrix} {d : Dir} {s : Nat} {l : List Nat} (h : m.Round d s l)
    (hlink : ∀ x ∈ s :: l, m'.link d x = m.link d x) : m'.Round d s l where
  chain := h.chain.imp_of_mem_imp fun a _ ha _ hab => (hlink a (mem_of_mem_closed ha)).trans hab
  sorted := h.sorted
  lt x hx := lt_of_link ((hlink x hx).trans (link_of_lt (h.lt x hx) d))

namespace Climbs

variable {m m' : Matrix} {d : Dir} {s p q v w x : Nat} {line : Set Nat}

/-- The nodes of the line are nodes of the matrix. -/
theorem lt (h : m.Climbs d s line) (hx : x ∈ line) : x < m.nodes.size := by
  obtain ⟨y, -, hlink, -⟩ := h.next x hx
  exact lt_of_link hlink

/-- Only the links of the nodes of the line count. -/
theorem congr (h : m.Climbs d s line) (hnext : ∀ x ∈ line, m'.link d x = m.link d x)
    (hprev : ∀ x ∈ line, m'.link d.back x = m.link d.back x) : m'.Climbs d s line where
  start := h.start
  least := h.least
  next x hx := by
    rw [hnext x hx]
    exact h.next x hx
  prev x hx := by
    rw [hprev x hx]
    exact h.prev x hx

/-! ## New links -/

/-- New links within the line that respect the order. -/
theorem splice (h : m.Climbs d s line) (hp : p ∈ line) (hv : v ∈ line) (hq : q ∈ line)
    (hw : w ∈ line) (hpv : v = s ∨ p < v) (hwq : q = s ∨ w < q) :
    (m.splice d p v q w).Climbs d s line where
  start := h.start
  least := h.least
  -- forth, only `p` has a new link
  next x hx := by
    rw [link_splice]
    by_cases hxp : x = p
    · subst hxp
      exact ⟨v, hv, link_write_self (h.lt hx) d v, hpv⟩
    · rw [link_write_of_ne hxp]
      exact h.next x hx
  -- back, only `q` has a new one
  prev x hx := by
    by_cases hxq : x = q
    · subst hxq
      exact ⟨w, hw, link_splice_back_self (h.lt hx) d p v w, hwq⟩
    · rw [link_splice_back hxq]
      exact h.prev x hx

/-- A node of the line names its neighbours, and the links climb when these are joined to each other
    as well as when the node is written between them. -/
theorem exists_neighbours (h : m.Climbs d s line) (hx : x ∈ line) (hne : x ≠ s) :
    ∃ p ∈ line, ∃ q ∈ line, m.link d.back x = some p ∧ m.link d x = some q ∧
      (m.splice d p q q p).Climbs d s line ∧ (m.splice d p x q x).Climbs d s line := by
  obtain ⟨p, hp, hpx, hlt⟩ := h.prev x hx
  obtain ⟨q, hq, hxq, hgt⟩ := h.next x hx
  have hlt := hlt.resolve_left hne
  -- the predecessor is smaller than the node, so it is smaller than the successor
  have hpq : q = s ∨ p < q := hgt.imp_right (Nat.lt_trans hlt)
  exact ⟨p, hp, q, hq, hpx, hxq, h.splice hp hq hq hp hpq hpq, h.splice hp hx hq hx (.inr hlt) hgt⟩

/-- New links of nodes outside the line. -/
theorem splice_of_not_mem (h : m.Climbs d s line) (hp : p ∉ line) (hq : q ∉ line) (v w : Nat) :
    (m.splice d p v q w).Climbs d s line := by
  refine h.congr (fun x hx => ?_) fun x hx => ?_
  · rw [link_splice, link_write_of_ne (ne_of_mem_of_not_mem hx hp)]
  · rw [link_splice_back (ne_of_mem_of_not_mem hx hq)]

/-- New links in other directions. -/
theorem splice_of_dir_ne {e : Dir} (h : m.Climbs e s line) (hd : e ≠ d) (hb : e ≠ d.back)
    (p v q w : Nat) : (m.splice d p v q w).Climbs e s line :=
  h.congr (fun x _ => link_splice_of_dir_ne m hd hb p v q w x) fun x _ =>
    link_splice_of_dir_ne m (fun he => hb (by rw [← he, Dir.back_back]))
      (fun he => hd (by rw [← e.back_back, he, Dir.back_back])) p v q w x

/-- New sizes leave the links alone. -/
theorem resize (h : m.Climbs d s line) (c k : Nat) : (m.resize c k).Climbs d s line :=
  ⟨h.start, h.least, h.next, h.prev⟩

/-- A new node outside the line leaves its links alone. -/
theorem push (h : m.Climbs d s line) (n : Node) : (m.push n).Climbs d s line :=
  h.congr (fun _ hx => link_push_of_lt (h.lt hx) n d)
    fun _ hx => link_push_of_lt (h.lt hx) n d.back

/-- A new node comes in at the end of the line. It names the node before the start, whichever that
    is. -/
theorem append {n : Node} (h : m.Climbs d s line) (hp : m.link d.back s = some p)
    (hback : d.back.link n = p) (hnext : d.link n = s) :
    ((m.push n).splice d p m.nodes.size s m.nodes.size).Climbs d s
      (insert m.nodes.size line) := by
  -- the node before the start is one of the line
  obtain ⟨p', hp', hlink, -⟩ := h.prev s h.start
  cases hp.symm.trans hlink
  have hlt := h.lt hp'
  -- the line with the new node climbs before its neighbours name it
  have hpush : (m.push n).Climbs d s (insert m.nodes.size line) := by
    refine ⟨.inr h.start, fun x hx => ?_, fun x hx => ?_, fun x hx => ?_⟩
    · rcases hx with rfl | hx
      · exact (h.lt h.start).le
      · exact h.least x hx
    -- the new node itself, and a node that was there before
    · rcases hx with rfl | hx
      · exact ⟨s, .inr h.start, by rw [link_push_self, hnext], .inl rfl⟩
      · obtain ⟨y, hy, hxy⟩ := (h.push n).next x hx
        exact ⟨y, .inr hy, hxy⟩
    · rcases hx with rfl | hx
      · exact ⟨p, .inr hp', by rw [link_push_self, hback], .inr hlt⟩
      · obtain ⟨y, hy, hxy⟩ := (h.push n).prev x hx
        exact ⟨y, .inr hy, hxy⟩
  exact hpush.splice (.inr hp') (.inl rfl) (.inr h.start) (.inl rfl) (.inr hlt) (.inl rfl)

/-! ## The way to the start -/

/-- From every node of the line the links lead up, and from the last node met to the start. -/
private theorem exists_path (h : m.Climbs d s line) (hx : x ∈ line) :
    ∃ l, (x :: (l ++ [s])).IsChain (fun a b => m.link d a = some b) ∧
      (x :: l).Pairwise (· < ·) ∧ ∀ y ∈ l, y ∈ line := by
  -- induction on the number of nodes above `x`
  induction hk : m.nodes.size - x using Nat.strong_induction_on generalizing x with
  | _ k ih =>
  -- the link leads back to the start, or further up
  obtain ⟨y, hy, hlink, rfl | hxy⟩ := h.next x hx
  · exact ⟨[], by simpa using hlink, by simp, by simp⟩
  · have hlt := h.lt hx
    obtain ⟨l, hchain, hsorted, hl⟩ := ih (m.nodes.size - y) (by omega) hy rfl
    refine ⟨y :: l, ?_, ?_, ?_⟩
    · rw [List.cons_append, List.isChain_cons_cons]
      exact ⟨hlink, hchain⟩
    · rw [List.pairwise_cons] at hsorted ⊢
      refine ⟨fun z hz => ?_, List.pairwise_cons.mpr hsorted⟩
      rcases List.mem_cons.mp hz with rfl | hz
      · exact hxy
      · exact Nat.lt_trans hxy (hsorted.1 z hz)
    · intro z hz
      rcases List.mem_cons.mp hz with rfl | hz
      · exact hy
      · exact hl z hz

/-- The way around from the start. -/
theorem exists_round (h : m.Climbs d s line) : ∃ l, m.Round d s l ∧ ∀ x ∈ l, x ∈ line := by
  obtain ⟨l, hchain, hsorted, hl⟩ := h.exists_path h.start
  refine ⟨l, ⟨hchain, hsorted, fun x hx => ?_⟩, hl⟩
  rcases List.mem_cons.mp hx with rfl | hx
  · exact h.lt h.start
  · exact h.lt (hl x hx)

end Climbs

/-- A ring whose nodes stand in ascending order climbs. -/
theorem IsRing.climbs {m : Matrix} {d : Dir} {s : Nat} {l : List Nat} (h : m.IsRing d s l)
    (hsorted : (s :: l).Pairwise (· < ·)) : m.Climbs d s {x | x ∈ s :: l} := by
  -- where the ring is cut in two, the last node before the cut is joined to the first behind it
  -- the two halves of the closed ring meet in that step
  have hcut : ∀ l₁ l₂ x y, l = l₁ ++ l₂ → (s :: l₁).getLast? = some x →
      (l₂ ++ [s]).head? = some y → m.Joined d x y ∧ (y = s ∨ x < y) := by
    rintro l₁ l₂ x y rfl hx hy
    refine ⟨h.joined hx hy, ?_⟩
    rw [← List.cons_append, List.pairwise_append] at hsorted
    cases l₂ with
    | nil => exact .inl (Option.some.inj hy).symm
    | cons z l₂ =>
      obtain rfl : z = y := Option.some.inj hy
      exact .inr (hsorted.2.2 x (List.mem_of_getLast? hx) z (List.mem_cons_self ..))
  have hlast : ∀ l : List Nat, ∃ x, (s :: l).getLast? = some x := fun l =>
    ⟨_, List.getLast?_eq_some_getLast (List.cons_ne_nil s l)⟩
  have hs : ∀ x ∈ s :: l, s ≤ x := by
    intro x hx
    rcases List.mem_cons.mp hx with rfl | hx
    · exact le_rfl
    · exact ((List.pairwise_cons.mp hsorted).1 x hx).le
  -- every node has a next one and a previous one
  refine ⟨List.mem_cons_self .., hs, fun x hx => ?_, fun y hy => ?_⟩
  -- forth: cut behind the node
  · obtain ⟨l₁, l₂, hl, hx⟩ : ∃ l₁ l₂, l = l₁ ++ l₂ ∧ (s :: l₁).getLast? = some x := by
      rcases List.mem_cons.mp hx with rfl | hx
      · exact ⟨[], l, rfl, rfl⟩
      · obtain ⟨as, bs, rfl⟩ := List.append_of_mem hx
        exact ⟨as ++ [x], bs, by simp, by rw [← List.cons_append, List.getLast?_concat]⟩
    obtain ⟨y, hy⟩ := exists_head?_concat l₂ s
    obtain ⟨hjoined, hlt⟩ := hcut l₁ l₂ x y hl hx hy
    refine ⟨y, ?_, hjoined.1, hlt⟩
    have hmem := List.mem_of_head? hy
    rw [List.mem_append, List.mem_singleton] at hmem
    rw [Set.mem_ofPred_eq, List.mem_cons, hl, List.mem_append]
    rcases hmem with hmem | rfl
    · exact .inr (.inr hmem)
    · exact .inl rfl
  -- back: the last node is the one before the start; another one is cut off in front
  · rcases List.mem_cons.mp hy with rfl | hy
    · obtain ⟨x, hx⟩ := hlast l
      exact ⟨x, List.mem_of_getLast? hx, (hcut l [] x y (by simp) hx rfl).1.2, .inl rfl⟩
    · obtain ⟨as, bs, hl⟩ := List.append_of_mem hy
      obtain ⟨x, hx⟩ := hlast as
      obtain ⟨hjoined, hlt⟩ := hcut as (y :: bs) x y hl hx rfl
      refine ⟨x, ?_, hjoined.2, hlt⟩
      have hmem := List.mem_of_getLast? hx
      rw [Set.mem_ofPred_eq, List.mem_cons, hl, List.mem_append]
      rw [List.mem_cons] at hmem
      exact hmem.imp_right .inl

/-! ## Walks that come to their end -/

/-- The operation leads to a matrix with the property `P`, unless a size leaves the range of a
    word. -/
def Leads (P : Matrix → Prop) : Except Fault Matrix → Prop
  | .ok m => P m
  | .error fault => fault = .overflow

/-- One operation after the other. -/
theorem Leads.bind {P Q : Matrix → Prop} {x : Except Fault Matrix}
    {f : Matrix → Except Fault Matrix} (hx : Leads P x) (hf : ∀ m, P m → Leads Q (f m)) :
    Leads Q (x >>= f) := by
  cases x with
  | ok m => exact hf m hx
  | error fault => exact hx

/-- What an operation leads to may be weakened. -/
theorem Leads.imp {P Q : Matrix → Prop} {x : Except Fault Matrix} (hx : Leads P x)
    (h : ∀ m, P m → Q m) : Leads Q x := by
  cases x with
  | ok m => exact h m hx
  | error fault => exact hx

/-- What an operation leads to, unless a size leaves the range of a word. -/
theorem Leads.exists_ok {P : Matrix → Prop} {x : Except Fault Matrix} (hx : Leads P x) :
    (∃ m, x = .ok m) ∨ x = .error .overflow := by
  cases x with
  | ok m => exact .inl ⟨m, rfl⟩
  | error fault => exact .inr (congrArg Except.error hx)

section Walk

variable {m : Matrix} {d : Dir} {s id steps : Nat} {line : Set Nat}
  {visit : Matrix → Nat → Except Fault Matrix} {P : Matrix → Prop}

/-- A walk comes to its end if each step lowers the rank, whatever the visits have changed. -/
theorem walk_leads (line : Set Nat) (rank : Nat → Nat)
    (hvisit : ∀ m, P m → ∀ x ∈ line, x ≠ s → Leads P (visit m x))
    (hnext : ∀ m, P m → ∀ x ∈ line, x ≠ s →
      ∃ y ∈ line, m.link d x = some y ∧ rank y < rank x)
    (hP : P m) (hid : id ∈ line) (hsteps : rank id < steps) :
    Leads P (walk d.link visit s steps id m) := by
  -- induction on the number of steps, which exceeds the rank of the node that has been come to
  induction steps generalizing m id with
  | zero => exact absurd hsteps (Nat.not_lt_zero _)
  | succ steps ih =>
    rw [walk]
    split
    · exact hP
    next hne =>
      refine (hvisit m hP id hid hne).bind fun m' hP' => ?_
      obtain ⟨y, hy, hlink, hlt⟩ := hnext m' hP' id hid hne
      obtain ⟨n, hn, rfl⟩ := exists_node_of_link hlink
      rw [hn, ok_bind]
      exact ih hP' hy (by omega)

/-- So does a walk that starts at `s` itself. -/
theorem around_leads (line : Set Nat) (rank : Nat → Nat)
    (hvisit : ∀ m, P m → ∀ x ∈ line, x ≠ s → Leads P (visit m x))
    (hnext : ∀ m, P m → ∀ x ∈ line, x ≠ s →
      ∃ y ∈ line, m.link d x = some y ∧ rank y < rank x)
    (hP : P m) (hstart : ∃ y ∈ line, m.link d s = some y ∧ rank y < m.nodes.size) :
    Leads P (m.around d.link s visit) := by
  obtain ⟨y, hy, hlink, hlt⟩ := hstart
  obtain ⟨n, hn, rfl⟩ := exists_node_of_link hlink
  rw [around, hn, ok_bind]
  exact walk_leads line rank hvisit hnext hP hy hlt

/-- A walk along a line that climbs comes to its end. -/
theorem Climbs.around_leads (hvisit : ∀ m, P m → ∀ x ∈ line, x ≠ s → Leads P (visit m x))
    (hclimbs : ∀ m, P m → m.Climbs d s line) (hP : P m) :
    Leads P (m.around d.link s visit) := by
  -- all nodes of the line stand below the end of the present matrix
  let rank x := if x = s then 0 else m.nodes.size - x
  -- each step leads closer to that end, or to the start, which ranks lowest
  have hrank : ∀ x ∈ line, x ≠ s → ∀ y, y = s ∨ x < y → rank y < rank x := by
    intro x hx hne y hy
    have hlt := (hclimbs m hP).lt hx
    simp only [rank, if_neg hne]
    split <;> omega
  -- on the way, and at the first step
  refine Matrix.around_leads line rank hvisit (fun m' hP' x hx hne => ?_) hP ?_
  · obtain ⟨y, hy, hlink, hlt⟩ := (hclimbs m' hP').next x hx
    exact ⟨y, hy, hlink, hrank x hx hne y hlt⟩
  · obtain ⟨y, hy, hlink, hlt⟩ := (hclimbs m hP).next s (hclimbs m hP).start
    have hsize := (hclimbs m hP).lt hy
    refine ⟨y, hy, hlink, ?_⟩
    simp only [rank]
    split <;> omega

/-- So does a walk along it in the opposite direction. -/
theorem Climbs.around_back_leads (hvisit : ∀ m, P m → ∀ x ∈ line, x ≠ s → Leads P (visit m x))
    (hclimbs : ∀ m, P m → m.Climbs d s line) (hP : P m) :
    Leads P (m.around d.back.link s visit) := by
  -- the nodes themselves are the rank, as they get smaller
  refine Matrix.around_leads line id hvisit (fun m' hP' x hx hne => ?_) hP ?_
  · obtain ⟨y, hy, hlink, hlt⟩ := (hclimbs m' hP').prev x hx
    exact ⟨y, hy, hlink, hlt.resolve_left hne⟩
  · obtain ⟨y, hy, hlink, -⟩ := (hclimbs m hP).prev s (hclimbs m hP).start
    exact ⟨y, hy, hlink, (hclimbs m hP).lt hy⟩

/-- Each step around a ring comes closer to its end. -/
private theorem IsRing.exists_next {l : List Nat} (h : m.IsRing d s l) {x : Nat} (hx : x ∈ l) :
    ∃ y ∈ s :: l, m.link d x = some y ∧ l.length - l.idxOf y < l.length - l.idxOf x := by
  obtain ⟨as, bs, rfl⟩ := List.append_of_mem hx
  obtain ⟨hs, hnodup⟩ := List.nodup_cons.mp h.nodup
  -- the rank of the node counts the nodes behind it
  have hx : (as ++ x :: bs).idxOf x = as.length := by
    rw [List.idxOf_append_of_notMem (not_mem_of_nodup_append hnodup), List.idxOf_cons_self,
      Nat.add_zero]
  have hjoined : ∀ y, (bs ++ [s]).head? = some y → m.link d x = some y := by
    intro y hy
    rw [List.append_cons] at h
    refine (h.joined ?_ hy).1
    rw [← List.cons_append, List.getLast?_concat]
  -- the last node leads to the start
  cases bs with
  | nil =>
    refine ⟨s, List.mem_cons_self .., hjoined s rfl, ?_⟩
    rw [hx, List.idxOf_eq_length hs, List.length_append, List.length_singleton]
    omega
  -- another one leads to the next
  | cons y bs =>
    refine ⟨y, by simp, hjoined y rfl, ?_⟩
    have hy : (as ++ x :: y :: bs).idxOf y = as.length + 1 := by
      rw [List.append_cons] at hnodup ⊢
      rw [List.idxOf_append_of_notMem (not_mem_of_nodup_append hnodup), List.idxOf_cons_self]
      simp
    rw [hx, hy, List.length_append, List.length_cons, List.length_cons]
    omega

/-- A walk around a ring that the visits leave alone comes to its end. -/
theorem IsRing.around_leads {l : List Nat}
    (hvisit : ∀ m, P m → ∀ x ∈ l, Leads P (visit m x)) (hring : ∀ m, P m → m.IsRing d s l)
    (hP : P m) : Leads P (m.around d.link s visit) := by
  have hmem : ∀ x ∈ s :: l, x ≠ s → x ∈ l := fun x hx hne => (List.mem_cons.mp hx).resolve_left hne
  refine Matrix.around_leads {x | x ∈ s :: l} (fun x => l.length - l.idxOf x)
    (fun m' hP' x hx hne => hvisit m' hP' x (hmem x hx hne))
    (fun m' hP' x hx hne => (hring m' hP').exists_next (hmem x hx hne)) hP ?_
  -- the first step leads into the ring, whose ranks lie below its length
  have hlt := (hring m hP).length_lt
  obtain ⟨y, hy⟩ := exists_head?_concat l s
  refine ⟨y, ?_, (hring m hP).link_start hy, by omega⟩
  have hmem := List.mem_of_head? hy
  rw [List.mem_append, List.mem_singleton] at hmem
  exact List.mem_cons.mpr hmem.symm

end Walk
end ExactCover.Matrix
