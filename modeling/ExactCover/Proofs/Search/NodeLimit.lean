import ExactCover.Proofs.NodeLimit
import ExactCover.Proofs.Search.Calls

/-!
# Searches under two limits of nodes

Nothing but the count of nodes looks at the limit of a search. So a search with a smaller limit
gives the same answers and leaves the same matrix and the same counters, until it is cut off at
the first node too many. This holds for any matrix, whether its links are in order or not.

## Key results

- `isCut_visit`: the search below a node
- `run_answer_withLimit`: one call
- `after_withLimit`: any number of calls
-/

namespace ExactCover.Search

open Cutoff (Cuts)

variable {α : Type} {limit depth : Nat} {maxNodes : Option Nat} {s s' : Search} {x : Run α}

/-- The search with another limit of nodes. -/
def withLimit (limit : Nat) (s : Search) : Search := { s with maxNodes := some limit }

/-- Searches with the limit `maxNodes` and with the limit `limit`. -/
def cutoff (limit : Nat) (maxNodes : Option Nat) : Cutoff Search where
  limit := limit
  nodes s := s.stats.nodes
  Bears s := s.maxNodes = maxNodes
  lower := withLimit limit
  nodes_lower _ := rfl

/-- A computation does not look at the limit except by counting nodes. -/
def IsCut (limit : Nat) (maxNodes : Option Nat) (x : Run α) : Prop :=
  ∀ s, (cutoff limit maxNodes).Bears s → (cutoff limit maxNodes).Cuts s x x

/-! ## Steps -/

/-- Two computations that do not look at the limit, one after the other. -/
theorem IsCut.bind {β : Type} {f : α → Run β} (h : IsCut limit maxNodes x)
    (hf : ∀ a, IsCut limit maxNodes (f a)) : IsCut limit maxNodes (x >>= f) :=
  fun s hs => (h s hs).bind fun a s' hs' => hf a s' hs'

/-- Nothing is looked at. -/
private theorem isCut_pure (a : α) : IsCut limit maxNodes (pure a) := fun _ hs => .pure hs a

private theorem isCut_throw (e : Halt) : IsCut limit maxNodes
    (throw e : Run α) := fun _ hs => .throw hs e

/-- What is read of the state is not the limit. -/
theorem IsCut.get_bind {f : Search → Run α} (hf : ∀ s, IsCut limit maxNodes (f s))
    (hsame : ∀ s, f (withLimit limit s) = f s) : IsCut limit maxNodes (get >>= f) := by
  intro s hs
  refine .get_bind ?_
  have hlower : f ((cutoff limit maxNodes).lower s) = f s := hsame s
  rw [hlower]
  exact hf s s hs

private theorem isCut_lift (x : Except Fault α) : IsCut limit maxNodes (lift x) := by
  cases x with
  | ok a => exact isCut_pure a
  | error cause => exact isCut_throw _

/-- A question to the matrix is not about the limit. -/
private theorem isCut_ask (f : Matrix → Except Fault α) : IsCut limit maxNodes (ask f) :=
  .get_bind (fun _ => isCut_lift _) fun _ => rfl

/-- A change that touches neither the limit nor the nodes counted. -/
private theorem isCut_modify {f : Search → Search} (hmax : ∀ s, (f s).maxNodes = s.maxNodes)
    (hnodes : ∀ s, (f s).stats.nodes = s.stats.nodes)
    (hsame : ∀ s, f (withLimit limit s) = withLimit limit (f s)) :
    IsCut limit maxNodes (modify f) := by
  intro s hs
  refine .of_nodes_eq ((hmax s).trans hs) (hnodes s) ?_
  show EStateM.Result.ok _ (f (withLimit limit s)) = .ok _ (withLimit limit (f s))
  rw [hsame]

/-- Counting anything but nodes. -/
private theorem isCut_count {f : Stats → Except Fault Stats}
    (hf : ∀ {stats stats'}, f stats = .ok stats' → stats'.nodes = stats.nodes) :
    IsCut limit maxNodes (count f) := by
  intro s hs
  refine .of_nodes_eq ?_ ?_ ?_
  · rw [count_eq]
    cases f s.stats <;> exact hs
  · rw [count_eq]
    cases hst : f s.stats with
    | ok stats => exact hf hst
    | error cause => rfl
  · -- the counters do not depend on the limit
    have hstats : (withLimit limit s).stats = s.stats := rfl
    show count f (withLimit limit s) = mapState (withLimit limit) (count f s)
    rw [count_eq, count_eq, hstats]
    cases f s.stats <;> rfl

/-- A column is covered whatever the limit is. -/
private theorem isCut_coverColumn (c : Nat) : IsCut limit maxNodes (coverColumn c) :=
  .bind (isCut_count Stats.cover_nodes) fun _ =>
    .bind (isCut_ask _) fun _ => isCut_modify (fun _ => rfl) (fun _ => rfl) fun _ => rfl

/-- A column is uncovered whatever the limit is. -/
private theorem isCut_uncoverColumn (c : Nat) : IsCut limit maxNodes (uncoverColumn c) :=
  .bind (isCut_ask _) fun _ => isCut_modify (fun _ => rfl) (fun _ => rfl) fun _ => rfl

/-- Steps that do not look at the limit may be taken for all columns of a list. -/
private theorem isCut_forM {f : Nat → Run PUnit} (hf : ∀ c, IsCut limit maxNodes (f c))
    (cs : List Nat) :
    IsCut limit maxNodes (cs.forM f) := by
  induction cs with
  | nil => exact isCut_pure _
  | cons c cs ih => exact .bind (hf c) fun _ => ih

/-- An exact cover is kept whatever the limit is. -/
private theorem isCut_record : IsCut limit maxNodes record := by
  rw [record]
  refine .get_bind (fun s => ?_) fun _ => rfl
  dsimp only
  refine .bind (isCut_ask _) fun rows => ?_
  refine .bind (isCut_modify (fun _ => rfl) (fun _ => rfl) fun _ => rfl) fun _ => ?_
  refine .bind (isCut_count Stats.solve_nodes) fun _ => ?_
  exact .get_bind (fun s => isCut_pure _) fun _ => rfl

/-! ## Nodes -/

/-- The check of the links changes nothing. -/
private theorem finalState_checkedNode (s : Search) : finalState (checkedNode s) = s := by
  rw [checkedNode]
  split <;> rfl

/-- The check of the links does not look at the limit. -/
private theorem checkedNode_withLimit (limit : Nat) (s : Search) :
    checkedNode (withLimit limit s) = mapState (withLimit limit) (checkedNode s) := by
  have hmatrix : (withLimit limit s).matrix = s.matrix := rfl
  simp only [checkedNode, hmatrix]
  split <;> rfl

/-- A node is entered under both limits or under the larger one alone. -/
private theorem isCut_enter (hle : ∀ larger, maxNodes = some larger → limit ≤ larger)
    (depth : Nat) :
    IsCut limit maxNodes (enter depth) := by
  intro s hs
  -- the counter of nodes may be full under both limits
  cases hst : s.stats.enter depth with
  | error cause =>
    refine .of_nodes_eq ?_ ?_ ?_
    · simp only [enter_eq, hst]
      exact hs
    · simp only [enter_eq, hst]
      rfl
    · simp [enter_eq, hst, cutoff, withLimit, mapState]
  -- otherwise the node is counted, and only then the limit is looked at
  | ok stats =>
    have hfinal : finalState (enter depth s) = { s with stats } := by
      simp only [enter_eq, hst]
      split
      · rfl
      · exact finalState_checkedNode _
    refine .of_node hfinal hs (Stats.enter_nodes hst) (fun hwithin => ?_) fun habove => ?_
    · -- neither limit is exceeded
      have hlarger : stats.exceeds s.maxNodes = none := Stats.exceeds_eq_none (hs ▸ hle) hwithin
      have hsmaller : stats.exceeds (some limit) = none :=
        Stats.exceeds_eq_none (fun _ h => Nat.le_of_eq (Option.some.inj h)) hwithin
      show enter depth (withLimit limit s) = mapState (withLimit limit) (enter depth s)
      simp only [enter_eq, hst, hlarger, ← checkedNode_withLimit]
      simp only [withLimit, hst, hsmaller]
    · -- this is the first node above the smaller limit
      have hsmaller : stats.exceeds (some limit) = some limit := Stats.exceeds_eq_some habove
      show enter depth (withLimit limit s) = _
      simp only [enter_eq, withLimit, hst, hsmaller]
      rfl

/-- The rows of a column are tried. -/
private theorem isCut_tryRows {below : Run Outcome} (hbelow : IsCut limit maxNodes below)
    (head steps row : Nat) : IsCut limit maxNodes (tryRows below head steps row) := by
  -- induction on the entries that may still be met down the column
  induction steps generalizing row with
  | zero => exact isCut_throw _
  | succ steps ih =>
    rw [tryRows]
    split
    · exact isCut_pure _
    · refine .bind (isCut_modify (fun _ => rfl) (fun _ => rfl) fun _ => rfl) fun _ => ?_
      refine .bind (isCut_ask _) fun others => .bind (isCut_forM isCut_coverColumn _) fun _ => ?_
      refine .bind hbelow fun o => ?_
      cases o with
      | stopped => exact isCut_pure _
      | exhausted =>
        refine .bind (isCut_forM isCut_uncoverColumn _) fun _ => ?_
        refine .bind (isCut_modify (fun _ => rfl) (fun _ => rfl) fun _ => rfl) fun _ => ?_
        refine .bind (isCut_count Stats.backtrack_nodes) fun _ => .bind (isCut_ask _) fun entry => ?_
        exact ih entry.down

/-- The search below a node. -/
theorem isCut_visit (hle : ∀ larger, maxNodes = some larger → limit ≤ larger)
    (fuel depth : Nat) : IsCut limit maxNodes (visit fuel depth) := by
  -- induction on the fuel, step by step along the search
  induction fuel generalizing depth with
  | zero => exact isCut_throw _
  | succ fuel ih =>
    rw [visit]
    refine .bind (isCut_enter hle depth) fun _ => .get_bind (fun s => ?_) fun _ => rfl
    split
    · exact isCut_record
    refine .get_bind (fun s => ?_) fun _ => rfl
    refine .bind (isCut_ask _) fun column => ?_
    cases column with
    | none => exact isCut_pure _
    | some c =>
      refine .bind (isCut_ask _) fun size => ?_
      dsimp only
      split
      · exact isCut_pure _
      refine .bind (isCut_coverColumn c) fun _ => .bind (isCut_lift _) fun head => ?_
      refine .bind (isCut_ask _) fun first => .get_bind (fun s => ?_) fun _ => rfl
      refine .bind (isCut_tryRows (ih _) _ _ _) fun o => ?_
      cases o with
      | stopped => exact isCut_pure _
      | exhausted => exact .bind (isCut_uncoverColumn c) fun _ => isCut_pure _

/-! ## Calls -/

/-- A search is spent whatever the limit is. -/
private theorem isCut_spend : IsCut limit maxNodes spend :=
  isCut_modify (fun _ => rfl) (fun _ => rfl) fun _ => rfl

/-- A run for so many exact covers. -/
private theorem isCut_solveUpTo (hle : ∀ larger, maxNodes = some larger → limit ≤ larger)
    (max : Nat) :
    IsCut limit maxNodes (solveUpTo max) := by
  rw [solveUpTo]
  -- a spent search refuses, and nothing is searched for no exact covers
  refine .get_bind (fun s => ?_) fun _ => rfl
  dsimp only
  split
  · exact isCut_throw (α := List (List Nat)) .spent
  split
  · exact isCut_pure _
  refine .bind (isCut_modify (fun _ => rfl) (fun _ => rfl) fun _ => rfl) fun _ => ?_
  -- otherwise the tree is searched, and the search is spent if that fails
  have hroot : IsCut limit maxNodes
      (tryCatch visitRoot fun halt => do spend; throw halt) := fun s hs =>
    (isCut_visit hle wordBound 0 s hs).rethrow (fun _ hs => hs) (fun _ => rfl) fun _ => rfl
  refine .bind hroot fun o => ?_
  have hfound : IsCut limit maxNodes (do
      let found := (← get).found
      modify fun s => { s with found := #[] }
      return found.toList) :=
    .get_bind (fun s => .bind (isCut_modify (fun _ => rfl) (fun _ => rfl) fun _ => rfl) fun _ =>
      isCut_pure _) fun _ => rfl
  cases o with
  | exhausted => exact hfound
  | stopped => exact .bind isCut_spend fun _ => hfound

/-- The search after one call under the larger limit, and one call under the smaller. -/
theorem run_answer_withLimit (limit : Nat) (r : Request)
    (hle : ∀ larger, s.maxNodes = some larger → limit ≤ larger) :
    (s.run r.answer).2.maxNodes = s.maxNodes ∧
    s.stats.nodes ≤ (s.run r.answer).2.stats.nodes ∧
    ((s.run r.answer).2.stats.nodes ≤ limit →
      (withLimit limit s).run r.answer =
        ((s.run r.answer).1, withLimit limit (s.run r.answer).2)) ∧
    (s.stats.nodes ≤ limit → limit < (s.run r.answer).2.stats.nodes →
      ((withLimit limit s).run r.answer).1 = .error (.nodeLimit limit) ∧
      ((withLimit limit s).run r.answer).2.stats.nodes = limit + 1) := by
  -- the four facts are those of the run, read through the answer
  obtain ⟨hbears, hgrows, hsame, haborted⟩ := isCut_solveUpTo hle r.count s rfl
  have hrun : ∀ s : Search, (s.run (solveUpTo r.count)).2 = finalState (solveUpTo r.count s) := by
    intro s
    simp only [run, EStateM.run]
    cases solveUpTo r.count s <;> rfl
  simp only [run_answer, hrun]
  refine ⟨hbears, hgrows, fun hwithin => ?_, fun hbefore habove => ?_⟩
  · have hlower : solveUpTo r.count (withLimit limit s) =
      mapState (withLimit limit) (solveUpTo r.count s) := hsame hwithin
    simp only [run, EStateM.run, hlower]
    cases solveUpTo r.count s <;> rfl
  · obtain ⟨s', hlower, hnodes⟩ := haborted hbefore habove
    have hlower : solveUpTo r.count (withLimit limit s) = .error (.nodeLimit limit) s' := hlower
    simp only [run, EStateM.run, hlower]
    exact ⟨rfl, hnodes⟩

/-- No call takes back a node that has been counted. -/
theorem nodes_le_answer (s : Search) (r : Request) :
    s.stats.nodes ≤ (s.run r.answer).2.stats.nodes :=
  (run_answer_withLimit 0 r fun _ _ => Nat.zero_le _).2.1

/-- As long as the nodes stay within the smaller limit, the two searches differ in their limits
    alone. -/
theorem after_withLimit {calls : List Request}
    (hle : ∀ larger, s.maxNodes = some larger → limit ≤ larger)
    (hnodes : (s.after calls).stats.nodes ≤ limit) :
    (withLimit limit s).after calls = withLimit limit (s.after calls) ∧
      (s.after calls).maxNodes = s.maxNodes ∧ s.stats.nodes ≤ limit := by
  -- induction on the calls; the nodes after each are no more than those after all
  induction calls generalizing s with
  | nil => exact ⟨rfl, rfl, hnodes⟩
  | cons r calls ih =>
    obtain ⟨hmax, hgrows, hsame, -⟩ := run_answer_withLimit limit r hle
    rw [after_cons] at hnodes
    obtain ⟨hafter, hmax', hle'⟩ := ih (hmax ▸ hle) hnodes
    rw [after_cons, after_cons, hsame hle']
    exact ⟨hafter, hmax'.trans hmax, Nat.le_trans hgrows hle'⟩

end ExactCover.Search
