import ExactCover.Proofs.AlgorithmX.Basic
import ExactCover.Proofs.Stats

/-!
# Limits of nodes

A limit of nodes is looked at when a node has been counted, and at no other time. So of two
computations that differ in their limits alone, the one with the smaller limit does what the other
does as long as the nodes counted stay within it. If the other counts more, the one with the
smaller limit ends at the first node too many.

This file states the comparison for computations with any state that counts nodes, and shows that
it holds of a sequence of computations if it holds of each of them.

## Key results

- `Cutoff.Cuts.bind`: one computation after the other
-/

namespace ExactCover

variable {ε σ α β : Type}

/-- The state a computation ends in, with or without a result. -/
def finalState : EStateM.Result ε σ α → σ
  | .ok _ s => s
  | .error _ s => s

/-- The same end in another state. -/
def mapState (f : σ → σ) : EStateM.Result ε σ α → EStateM.Result ε σ α
  | .ok a s => .ok a (f s)
  | .error e s => .error e (f s)

/-- Two limits of nodes for computations with a state. -/
structure Cutoff (σ : Type) where
  /-- The smaller limit. -/
  limit : Nat
  /-- The nodes counted so far. -/
  nodes : σ → Nat
  /-- The state bears the larger limit. -/
  Bears : σ → Prop
  /-- The state with the smaller limit instead. -/
  lower : σ → σ
  nodes_lower : ∀ s, nodes (lower s) = nodes s

namespace Cutoff

variable {C : Cutoff σ} {s : σ} {x y : EStateM Halt σ α} {f g : α → EStateM Halt σ β}

/-- A computation has ended at the first node too many. -/
def Aborted (C : Cutoff σ) (r : EStateM.Result Halt σ α) : Prop :=
  ∃ s, r = .error (.nodeLimit C.limit) s ∧ C.nodes s = C.limit + 1

/-- Under the smaller limit `y` does what `x` does under the larger one, until more nodes are
    counted than the smaller limit allows. -/
structure Cuts (C : Cutoff σ) (s : σ) (x y : EStateM Halt σ α) : Prop where
  bears : C.Bears (finalState (x s))
  grows : C.nodes s ≤ C.nodes (finalState (x s))
  same : C.nodes (finalState (x s)) ≤ C.limit → y (C.lower s) = mapState C.lower (x s)
  aborted : C.nodes s ≤ C.limit → C.limit < C.nodes (finalState (x s)) →
    C.Aborted (y (C.lower s))

/-- What ends a computation ends a sequence of computations. -/
theorem Aborted.bind (h : C.Aborted (y s)) : C.Aborted ((y >>= g) s) := by
  obtain ⟨s', hy, hnodes⟩ := h
  exact ⟨s', bind_of_error hy, hnodes⟩

/-- One computation after the other. -/
theorem Cuts.bind (h : C.Cuts s x y)
    (hf : ∀ a s', C.Bears s' → C.Cuts s' (f a) (g a)) : C.Cuts s (x >>= f) (y >>= g) := by
  cases hx : x s with
  | error e s' =>
    -- what comes after is not reached
    have hbind : (x >>= f) s = .error e s' := bind_of_error hx
    have hfinal : finalState ((x >>= f) s) = finalState (x s) := by rw [hbind, hx]; rfl
    refine ⟨hfinal ▸ h.bears, hfinal ▸ h.grows, fun hle => ?_, fun hs hlt => ?_⟩
    · have hy := h.same (hfinal ▸ hle)
      rw [hx] at hy
      rw [hbind]
      exact bind_of_error hy
    · exact (h.aborted hs (hfinal ▸ hlt)).bind
  -- the first computation has succeeded, and the second goes on in the state it has left
  | ok a s' =>
    have hbind : (x >>= f) s = f a s' := bind_of_ok hx
    have hbears := h.bears
    have hgrows := h.grows
    have hsame := h.same
    have haborted := h.aborted
    rw [hx] at hbears hgrows hsame haborted
    simp only [finalState, mapState] at hbears hgrows hsame haborted
    have hrest := hf a s' hbears
    refine ⟨by rw [hbind]; exact hrest.bears, ?_, fun hle => ?_, fun hs hlt => ?_⟩
    -- the nodes grow in both
    · rw [hbind]
      exact Nat.le_trans hgrows hrest.grows
    -- nothing is cut off: the first part is the same, and so is the second
    · rw [hbind] at hle ⊢
      rw [bind_of_ok (hsame (Nat.le_trans hrest.grows hle))]
      exact hrest.same hle
    · rw [hbind] at hlt
      -- the limit is passed before or after
      by_cases hs' : C.nodes s' ≤ C.limit
      · rw [bind_of_ok (hsame hs')]
        exact hrest.aborted hs' hlt
      · exact (haborted hs (Nat.lt_of_not_le hs')).bind

/-- A computation that counts no node. -/
theorem Cuts.of_nodes_eq (hbears : C.Bears (finalState (x s)))
    (hnodes : C.nodes (finalState (x s)) = C.nodes s)
    (hsame : y (C.lower s) = mapState C.lower (x s)) : C.Cuts s x y where
  bears := hbears
  grows := Nat.le_of_eq hnodes.symm
  same _ := hsame
  aborted hs hlt := by omega

/-- The state is looked at. -/
theorem Cuts.get_bind {f g : σ → EStateM Halt σ β} (h : C.Cuts s (f s) (g (C.lower s))) :
    C.Cuts s (get >>= f) (get >>= g) := by
  -- both look at their own state, which is all they do
  have hf : (get >>= f) s = f s s := bind_of_ok rfl
  have hg : (get >>= g) (C.lower s) = g (C.lower s) (C.lower s) := bind_of_ok rfl
  refine ⟨?_, ?_, fun hle => ?_, fun hs hlt => ?_⟩
  · rw [hf]
    exact h.bears
  · rw [hf]
    exact h.grows
  · rw [hf] at hle ⊢
    rw [hg]
    exact h.same hle
  · rw [hf] at hlt
    rw [hg]
    exact h.aborted hs hlt

/-- If a computation fails, the state is changed and it fails all the same. -/
theorem Cuts.rethrow (h : C.Cuts s x y) {f : σ → σ} (hbears : ∀ s, C.Bears s → C.Bears (f s))
    (hnodes : ∀ s, C.nodes (f s) = C.nodes s) (hlower : ∀ s, f (C.lower s) = C.lower (f s)) :
    C.Cuts s (tryCatch x fun e => do modify f; throw e)
      (tryCatch y fun e => do modify f; throw e) := by
  -- what is caught is thrown again from the changed state
  have hcatch : ∀ (z : EStateM Halt σ α) (s : σ),
      (tryCatch z fun e => do modify f; throw e) s = match z s with
        | .ok a s' => .ok a s'
        | .error e s' => .error e (f s') := by
    intro z s
    show EStateM.tryCatch z _ s = _
    rw [EStateM.tryCatch]
    cases z s <;> rfl
  -- the change counts no node
  have hkept : C.nodes (finalState ((tryCatch x fun e => do modify f; throw e) s)) =
      C.nodes (finalState (x s)) := by
    rw [hcatch]
    cases x s with
    | ok a s' => rfl
    | error e s' => exact hnodes s'
  -- in turn: the larger limit is borne, nodes grow, nothing changes within the limit, the abort
  -- stays
  refine ⟨?_, hkept ▸ h.grows, fun hle => ?_, fun hs hlt => ?_⟩
  · have hx := h.bears
    rw [hcatch]
    generalize x s = r at hx ⊢
    cases r with
    | ok a s' => exact hx
    | error e s' => exact hbears s' hx
  · rw [hcatch, hcatch, h.same (hkept ▸ hle)]
    cases x s with
    | ok a s' => rfl
    | error e s' => exact congrArg (EStateM.Result.error e) (hlower s')
  · obtain ⟨s', hy, hs'⟩ := h.aborted hs (hkept ▸ hlt)
    refine ⟨f s', ?_, (hnodes s').trans hs'⟩
    rw [hcatch, hy]

/-- A node is counted, and then the limit is looked at. -/
theorem Cuts.of_node {s' : σ} (hfinal : finalState (x s) = s') (hbears : C.Bears s')
    (hnodes : C.nodes s' = C.nodes s + 1)
    (hwithin : C.nodes s' ≤ C.limit → y (C.lower s) = mapState C.lower (x s))
    (habove : C.limit < C.nodes s' → y (C.lower s) = .error (.nodeLimit C.limit) (C.lower s')) :
    C.Cuts s x y := by
  subst hfinal
  refine ⟨hbears, by omega, hwithin, fun hs hlt => ⟨_, habove hlt, ?_⟩⟩
  rw [C.nodes_lower]
  omega

/-- A value is the same under both limits. -/
theorem Cuts.pure (hs : C.Bears s) (a : α) : C.Cuts s (pure a) (pure a) :=
  .of_nodes_eq hs rfl rfl

/-- A failure is the same under both limits. -/
theorem Cuts.throw (hs : C.Bears s) (e : Halt) :
    C.Cuts s (throw e : EStateM Halt σ α) (throw e) :=
  .of_nodes_eq hs rfl rfl

end Cutoff

/-! ## Counters -/

namespace Stats

variable {stats stats' : Stats} {limit depth : Nat} {maxNodes : Option Nat}

/-- A covered column is no node. -/
theorem cover_nodes (h : stats.cover = .ok stats') : stats'.nodes = stats.nodes := by
  rw [cover_eq_add h]
  rfl

/-- A row given up is no node. -/
theorem backtrack_nodes (h : stats.backtrack = .ok stats') : stats'.nodes = stats.nodes := by
  rw [backtrack_eq_add h]
  rfl

/-- A solution is no node. -/
theorem solve_nodes (h : stats.solve = .ok stats') : stats'.nodes = stats.nodes := by
  rw [solve_eq_add h]
  rfl

/-- Entering counts one node. -/
theorem enter_nodes (h : stats.enter depth = .ok stats') : stats'.nodes = stats.nodes + 1 := by
  rw [enter_eq_add h]
  rfl

/-- No limit is exceeded that is at least as large as one that is kept. -/
theorem exceeds_eq_none (hle : ∀ larger, maxNodes = some larger → limit ≤ larger)
    (h : stats.nodes ≤ limit) : stats.exceeds maxNodes = none := by
  rw [exceeds, Option.filter_eq_none_iff]
  intro larger hlarger
  have := hle larger hlarger
  simp only [decide_eq_true_eq]
  omega

/-- A limit is exceeded by more nodes than it allows. -/
theorem exceeds_eq_some (h : limit < stats.nodes) : stats.exceeds (some limit) = some limit := by
  simp [exceeds, h]

end Stats
end ExactCover
