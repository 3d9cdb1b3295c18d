import UringServer.Lib.Replay

/-! # Simulations that stutter

One machine simulates another if it can answer each of its steps with a tape of its own, possibly an
empty one, and stay related. Then it can answer whole replays. What the relation says may depend on all
that was answered so far.
-/

namespace UringServer.Replay

variable {σ τ ε α : Type*} {step? : σ → ε → Option σ} {act? : τ → α → Option τ}

/-- Every permitted step from a related state is answered by a tape that leads to a related one, the tape
being added to the answers so far. -/
def Simulates (step? : σ → ε → Option σ) (act? : τ → α → Option τ) (permitted : ε → Prop)
    (related : σ → List α → τ → Prop) : Prop :=
  ∀ source past image event next, permitted event → related source past image →
    step? source event = some next → ∃ actions after, run? act? image actions = some after ∧
      related next (past ++ actions) after

variable {permitted : ε → Prop} {related : σ → List α → τ → Prop} {source target : σ} {past : List α}
  {image : τ} {events : List ε}

/-- A simulation answers replays. -/
theorem Simulates.run (simulates : Simulates step? act? permitted related)
    (tape : ∀ event ∈ events, permitted event) (start : related source past image)
    (run : run? step? source events = some target) :
    ∃ actions after, run? act? image actions = some after ∧ related target (past ++ actions) after := by
  induction events generalizing source past image with
  | nil =>
    cases run
    exact ⟨[], image, rfl, (List.append_nil past).symm ▸ start⟩
  | cons event rest ih =>
    obtain ⟨next, stepped, run⟩ := run?_cons_iff.mp run
    obtain ⟨first, middle, answered, here⟩ :=
      simulates source past image event next (tape event (List.mem_cons_self ..)) start stepped
    obtain ⟨second, after, later, there⟩ :=
      ih (fun other member => tape other (List.mem_cons_of_mem _ member)) here run
    rw [List.append_assoc] at there
    exact ⟨first ++ second, after, run?_append_iff.mpr ⟨middle, answered, later⟩, there⟩

end UringServer.Replay
