import ExactCover.Proofs.Search.Requests

/-!
# Calls of one search

A search may be called any number of times, also after a call that has given no answer. Each call
begins with the search that the call before has left. A call that gives no answer bars all later
ones.

## Key results

- `run_of_spent`: a barred search refuses every call and stays as it is
- `spent_of_error`: a call without an answer bars all later ones
-/

namespace ExactCover.Search

variable {s s' : Search} {r : Request} {e : Halt}

/-- The search after some calls. -/
def after (s : Search) (calls : List Request) : Search :=
  calls.foldl (fun s r => (s.run r.answer).2) s

/-- The number of exact covers asked for. -/
def Request.count : Request → Nat
  | one => 1
  | upTo max => max

@[simp] theorem after_nil (s : Search) : s.after [] = s := rfl

@[simp] theorem after_cons (s : Search) (r : Request) (calls : List Request) :
    s.after (r :: calls) = (s.run r.answer).2.after calls := rfl

/-- What is found in a run is the answer to a request. -/
def Request.read : Request → List (List Nat) → List (List Nat)
  | one, found => found.getLast?.toList
  | upTo _, found => found

/-- The request for one exact cover reads the last that has been found. -/
theorem Request.answer_one :
    one.answer = solveUpTo 1 >>= fun found => pure found.getLast?.toList := by
  simp only [Request.answer, solveOne, bind_assoc, pure_bind]

/-- A request is answered by a run that is asked for as many exact covers. -/
theorem run_answer (s : Search) (r : Request) :
    s.run r.answer =
      ((s.run (solveUpTo r.count)).1.map r.read, (s.run (solveUpTo r.count)).2) := by
  -- a result is read after the run, and a failure is passed on
  cases r with
  | one =>
    rw [Request.answer_one]
    simp only [run, EStateM.run, Request.count]
    cases hx : solveUpTo 1 s with
    | ok found s' => rw [bind_of_ok hx]; rfl
    | error e s' => rw [bind_of_error hx]; rfl
  | upTo max =>
    simp only [Request.answer, Request.count]
    cases hx : (s.run (solveUpTo max)).1 with
    | ok found => simp [Request.read, Except.map, ← hx]
    | error e => simp [Except.map, ← hx]

/-- A search that is spent refuses every call and stays as it is. -/
theorem run_of_spent (h : s.spent = true) (r : Request) : s.run r.answer = (.error .spent, s) := by
  rw [run_answer]
  simp only [run, EStateM.run, solveUpTo_of_spent h]
  rfl

/-- A search that is spent stays as it is in any number of calls. -/
theorem after_of_spent (h : s.spent = true) (calls : List Request) : s.after calls = s := by
  induction calls with
  | nil => rfl
  | cons r calls ih => rw [after_cons, run_of_spent h, ih]

/-- A search that is spent refuses every later call. -/
theorem run_after_of_spent (h : s.spent = true) (calls : List Request) (r : Request) :
    (s.after calls).run r.answer = (.error .spent, s) := by
  rw [after_of_spent h, run_of_spent h]

/-- A run that gives no answer bars all later calls. -/
theorem solveUpTo_spent {max : Nat} (h : solveUpTo max s = .error e s') : s'.spent = true := by
  cases hspent : s.spent with
  | true =>
    rw [solveUpTo_of_spent hspent] at h
    cases h
    exact hspent
  | false =>
    -- without exact covers to look for nothing is searched; otherwise a failed search is marked
    rcases Nat.eq_zero_or_pos max with rfl | hmax
    · exact nomatch (solveUpTo_zero hspent).symm.trans h
    · rw [solveUpTo_eq hspent hmax] at h
      split at h
      · cases h
      · cases h
      · cases h
        rfl

/-- A call that gives no answer bars all later ones. -/
theorem spent_of_error (h : s.run r.answer = (.error e, s')) : s'.spent = true := by
  rw [run_answer, Prod.mk.injEq] at h
  obtain ⟨herror, rfl⟩ := h
  cases hx : solveUpTo r.count s with
  | ok found s₁ => simp [run, EStateM.run, hx, Except.map] at herror
  | error e' s₁ =>
    simp only [run, EStateM.run, hx]
    exact solveUpTo_spent hx

end ExactCover.Search
