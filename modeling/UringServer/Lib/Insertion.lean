import UringServer.Lib.Replay

/-! # Events put into a tape

A machine may have events that only bring forward what it would do anyway. If a state that had more of
them keeps up with one that had fewer, then putting more of them anywhere into a tape changes nothing
else about where it leads.
-/

namespace UringServer.Replay

variable {σ ε : Type*} {step? : σ → ε → Option σ}

/-- `longer` is `events` with extra events in between. -/
inductive Inserted (extra : ε → Prop) : List ε → List ε → Prop
  | nil : Inserted extra [] []
  | put {event : ε} {events longer : List ε} (allowed : extra event) (rest : Inserted extra events longer) :
      Inserted extra events (event :: longer)
  | keep {event : ε} {events longer : List ε} (rest : Inserted extra events longer) :
      Inserted extra (event :: events) (event :: longer)

variable {extra : ε → Prop} {related : σ → σ → Prop} {alive : σ → Prop} {source ahead target : σ}
  {events longer : List ε}

theorem Inserted.behind (front : List ε) (rest : Inserted extra events longer) :
    Inserted extra (front ++ events) (front ++ longer) := by
  induction front with
  | nil => exact rest
  | cons event front ih => exact .keep ih

/-- If only living states take steps, then a replay that ends alive was alive at its start. -/
private theorem alive_of_run (lives : ∀ source event next, step? source event = some next → alive source)
    (run : run? step? source events = some target) (living : alive target) : alive source := by
  cases events with
  | nil => cases run; exact living
  | cons event rest =>
    obtain ⟨next, stepped, -⟩ := run?_cons_iff.mp run
    exact lives source event next stepped

/-- A state that is ahead of another follows its replay, whatever else is put in. -/
theorem Inserted.run (lives : ∀ source event next, step? source event = some next → alive source)
    (follows : ∀ source ahead event next, related source ahead → alive next →
      step? source event = some next → ∃ after, step? ahead event = some after ∧ related next after)
    (absorbs : ∀ source ahead event, extra event → related source ahead → alive source →
      ∃ after, step? ahead event = some after ∧ related source after)
    (inserted : Inserted extra events longer) (start : related source ahead)
    (run : run? step? source events = some target) (living : alive target) :
    ∃ after, run? step? ahead longer = some after ∧ related target after := by
  induction inserted generalizing source ahead with
  | nil =>
    cases run
    exact ⟨ahead, rfl, start⟩
  | @put event events longer allowed rest ih =>
    obtain ⟨middle, taken, here⟩ :=
      absorbs source ahead event allowed start (alive_of_run lives run living)
    obtain ⟨after, later, there⟩ := ih here run
    exact ⟨after, run?_cons_iff.mpr ⟨middle, taken, later⟩, there⟩
  | @keep event events longer rest ih =>
    obtain ⟨next, stepped, run⟩ := run?_cons_iff.mp run
    obtain ⟨middle, taken, here⟩ :=
      follows source ahead event next start (alive_of_run lives run living) stepped
    obtain ⟨after, later, there⟩ := ih here run
    exact ⟨after, run?_cons_iff.mpr ⟨middle, taken, later⟩, there⟩

end UringServer.Replay
