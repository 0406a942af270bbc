import ExactCover.Proofs.AlgorithmX.Basic

/-!
# What computations yield

What holds after a computation of a search, if it gives a result or is cut off at a node. Of a
computation that fails for another reason nothing is said.

## Key results

- `Yields.bind`: one computation after the other
-/

namespace ExactCover

variable {σ α β : Type} {C C' : σ → Prop} {Q Q' : α → σ → Prop} {R : β → σ → Prop}
  {x : EStateM Halt σ α} {f : α → EStateM Halt σ β} {s s' : σ}

/-- A result is as `Q` says. If the computation was cut off, the state is as `C` says. -/
def Yields (C : σ → Prop) (Q : α → σ → Prop) : EStateM.Result Halt σ α → Prop
  | .ok a s => Q a s
  | .error (.nodeLimit _) s => C s
  | .error _ _ => True

/-- A cut ends the computations that follow as well. -/
theorem Yields.error {e : Halt} (h : Yields C Q (.error e s)) :
    Yields C R (.error e s) := by
  cases e <;> exact h

/-- What follows a computation goes on from what this one yields. -/
theorem Yields.bind (hx : Yields C Q (x s)) (hf : ∀ a s', Q a s' → Yields C R (f a s')) :
    Yields C R ((x >>= f) s) := by
  cases hr : x s with
  | ok a s' =>
    rw [hr] at hx
    rw [bind_of_ok hr]
    exact hf a s' hx
  -- no result, so what follows is not reached
  | error e s' =>
    rw [hr] at hx
    rw [bind_of_error hr]
    exact hx.error

/-- A step that is known to succeed. -/
theorem Yields.step {a : α} (hx : x s = .ok a s') (hf : Yields C R (f a s')) :
    Yields C R ((x >>= f) s) := by
  rwa [bind_of_ok hx]

/-- What is yielded may be weakened, at the end and at a cut. -/
theorem Yields.imp {r : EStateM.Result Halt σ α} (h : Yields C Q r) (hC : ∀ s, C s → C' s)
    (hQ : ∀ a s, Q a s → Q' a s) : Yields C' Q' r := by
  match r, h with
  | .ok a s, h => exact hQ a s h
  | .error (.nodeLimit _) s, h => exact hC s h
  -- nothing is said of the other failures
  | .error .spent _, _ | .error (.broken _) _, _ | .error (.coverLength _) _, _
  | .error (.fault _) _, _ => trivial

end ExactCover
