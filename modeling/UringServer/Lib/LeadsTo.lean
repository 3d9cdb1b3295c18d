import UringServer.Lib.Replay
import Mathlib.Data.List.GetD
import Mathlib.Order.Nat

/-! # Unending replays

What must happen at last is a property of replays that go on forever. `LeadsTo` says that whenever one
property holds another one holds then or later. Its rules are those of fairness: a property that
persists until its goal is reached, and that some recurring event brings closer to the goal by a rank,
leads to the goal.
-/

namespace UringServer.Replay

variable {σ ε : Type*}

/-- A replay that goes on forever. -/
structure Execution (step? : σ → ε → Option σ) where
  state : ℕ → σ
  event : ℕ → ε
  moves : ∀ n, step? (state n) (event n) = some (state (n + 1))

namespace Execution

variable {step? : σ → ε → Option σ} (x : Execution step?)

/-- Whenever `p` holds, `q` holds then or later. -/
def LeadsTo (p q : σ → Prop) : Prop := ∀ n, p (x.state n) → ∃ m ≥ n, q (x.state m)

variable {x} {p q r : σ → Prop}

/-- What every step of the execution preserves holds forever. -/
theorem always {invariant : σ → Prop}
    (step : ∀ n, invariant (x.state n) → invariant (x.state (n + 1)))
    (initial : invariant (x.state 0)) (n : ℕ) : invariant (x.state n) := by
  induction n with
  | zero => exact initial
  | succ n ih => exact step n ih

theorem LeadsTo.trans (first : x.LeadsTo p q) (second : x.LeadsTo q r) : x.LeadsTo p r := by
  intro n here
  obtain ⟨m, later, middle⟩ := first n here
  obtain ⟨k, last, there⟩ := second m middle
  exact ⟨k, le_trans later last, there⟩

/-- What persists until the goal is there lasts until some later time, or the goal comes before. -/
theorem persists (keeps : ∀ n, p (x.state n) → p (x.state (n + 1)) ∨ q (x.state (n + 1))) {n m : ℕ}
    (later : n ≤ m) (here : p (x.state n)) : p (x.state m) ∨ ∃ k ≥ n, q (x.state k) := by
  induction m, later using Nat.le_induction with
  | base => exact .inl here
  | succ m later ih =>
    rcases ih with there | reached
    · rcases keeps m there with stays | goal
      · exact .inl stays
      · exact .inr ⟨m + 1, later.trans (Nat.le_succ m), goal⟩
    · exact .inr reached

/-- A property that does not last leads to what ends it. -/
theorem leadsTo_of_leaves (keeps : ∀ n, p (x.state n) → p (x.state (n + 1)) ∨ q (x.state (n + 1)))
    (leaves : ∀ n, p (x.state n) → ∃ m ≥ n, ¬ p (x.state m)) : x.LeadsTo p q := by
  intro n here
  obtain ⟨m, later, left⟩ := leaves n here
  exact (persists keeps later here).resolve_left left

/-- A property that persists until its goal leads there if its rank never grows and some event that
keeps coming lowers it. -/
theorem leadsTo_of_rank (helpful : ε → Prop) (rank : σ → ℕ)
    (keeps : ∀ n, p (x.state n) →
      (p (x.state (n + 1)) ∧ rank (x.state (n + 1)) ≤ rank (x.state n)) ∨ q (x.state (n + 1)))
    (helps : ∀ n, p (x.state n) → helpful (x.event n) →
      (p (x.state (n + 1)) ∧ rank (x.state (n + 1)) < rank (x.state n)) ∨ q (x.state (n + 1)))
    (fair : ∀ n, p (x.state n) → ∃ m ≥ n, helpful (x.event m)) : x.LeadsTo p q := by
  suffices bounded : ∀ bound n, p (x.state n) → rank (x.state n) ≤ bound → ∃ m ≥ n, q (x.state m) by
    exact fun n here => bounded _ n here le_rfl
  intro bound
  induction bound using Nat.strong_induction_on with
  | _ bound ih =>
    intro n here small
    obtain ⟨m, later, help⟩ := fair n here
    have stays (k : ℕ) (below : p (x.state k) ∧ rank (x.state k) ≤ bound) :
        (p (x.state (k + 1)) ∧ rank (x.state (k + 1)) ≤ bound) ∨ q (x.state (k + 1)) :=
      (keeps k below.1).imp_left fun next => ⟨next.1, next.2.trans below.2⟩
    rcases @persists _ _ _ x (fun s => p s ∧ rank s ≤ bound) q stays n m later ⟨here, small⟩ with
      ⟨there, below⟩ | reached
    · rcases helps m there help with ⟨next, lower⟩ | goal
      · obtain ⟨k, last, goal⟩ := ih _ (lower.trans_le below) (m + 1) next le_rfl
        exact ⟨k, (later.trans (Nat.le_succ m)).trans last, goal⟩
      · exact ⟨m + 1, later.trans (Nat.le_succ m), goal⟩
    · exact reached

/-- What lasts until a helpful event comes still holds when it comes. -/
theorem meets {helpful : ε → Prop}
    (keeps : ∀ n, ¬ helpful (x.event n) → p (x.state n) → p (x.state (n + 1))) {n : ℕ}
    (here : p (x.state n)) (fair : ∃ m ≥ n, helpful (x.event m)) :
    ∃ m ≥ n, helpful (x.event m) ∧ p (x.state m) := by
  have lasts (m : ℕ) (later : n ≤ m) :
      p (x.state m) ∨ ∃ k ≥ n, helpful (x.event k) ∧ p (x.state k) := by
    induction m, later using Nat.le_induction with
    | base => exact .inl here
    | succ m later ih =>
      rcases ih with there | met
      · by_cases help : helpful (x.event m)
        · exact .inr ⟨m, later, help, there⟩
        · exact .inl (keeps m help there)
      · exact .inr met
  obtain ⟨m, later, help⟩ := fair
  rcases lasts m later with there | met
  · exact ⟨m, later, help, there⟩
  · exact met

section Settled

variable {source target : σ} {events : List ε} {idle : ε}

/-- A replay, and from its end on an event that changes nothing. -/
def settled (run : run? step? source events = some target) (rests : step? target idle = some target) :
    Execution step? where
  state n := (run? step? source (events.take n)).getD target
  event n := events.getD n idle
  moves n := by
    by_cases early : n < events.length
    · have split : events.take n ++ events[n] :: events.drop (n + 1) = events := by simp
      rw [← split] at run
      obtain ⟨middle, here, later⟩ := run?_append_iff.mp run
      obtain ⟨next, stepped, -⟩ := run?_cons_iff.mp later
      have there : run? step? source (events.take (n + 1)) = some next := by
        rw [List.take_succ_eq_append_getElem early]
        exact run?_append_iff.mpr ⟨middle, here, run?_cons_iff.mpr ⟨next, stepped, rfl⟩⟩
      rw [here, there, List.getD_eq_getElem _ _ early]
      exact stepped
    · have late := not_lt.mp early
      rw [List.take_of_length_le late, List.take_of_length_le (late.trans (Nat.le_succ n)), run,
        List.getD_eq_default _ _ late]
      exact rests

variable {run : run? step? source events = some target} {rests : step? target idle = some target}

/-- From its end on the replay rests. -/
theorem settled_of_le {n : ℕ} (late : events.length ≤ n) :
    (settled run rests).state n = target ∧ (settled run rests).event n = idle := by
  refine ⟨?_, List.getD_eq_default _ _ late⟩
  change (run? step? source (events.take n)).getD target = target
  rw [List.take_of_length_le late, run]
  rfl

/-- Only the events of the tape come, or the idle one. -/
theorem settled_event_mem (n : ℕ) :
    (settled run rests).event n ∈ events ∨ (settled run rests).event n = idle := by
  by_cases early : n < events.length
  · left
    change events.getD n idle ∈ events
    rw [List.getD_eq_getElem _ _ early]
    exact List.getElem_mem early
  · exact .inr (settled_of_le (not_lt.mp early)).2

end Settled

end Execution

end UringServer.Replay
