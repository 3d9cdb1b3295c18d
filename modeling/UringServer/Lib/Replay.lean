import Mathlib.Data.List.Basic
import Mathlib.Data.Option.Basic

/-! # Replaying event tapes

A partial step function and a tape of events determine every intermediate state. An invariant
of single steps survives the replay. Two readings of a tape are compared: `Throughout` speaks
about the states a replay visits, `Along` about the steps it takes. Where one step keeps a state
property exactly under a condition on its source, the two readings agree on every tape. `trace` collects
what the steps put out. Two machines whose single steps correspond take the same tapes.
-/

namespace UringServer.Replay

variable {σ ε : Type*}

/-- A source plus an event tape determines the endpoint; a refused event refuses the tape. -/
def run? (step? : σ → ε → Option σ) : σ → List ε → Option σ
  | source, [] => some source
  | source, event :: rest => (step? source event).bind fun next => run? step? next rest

/-- Every state the replay visits satisfies `good`, the source and the endpoint included. -/
def Throughout (step? : σ → ε → Option σ) (good : σ → Prop) : σ → List ε → Prop
  | source, [] => good source
  | source, event :: rest =>
      good source ∧ ∀ next, step? source event = some next → Throughout step? good next rest

/-- Every step the replay takes satisfies `allowed` at its source. -/
def Along (step? : σ → ε → Option σ) (allowed : σ → ε → Prop) : σ → List ε → Prop
  | _, [] => True
  | source, event :: rest =>
      allowed source event ∧ ∀ next, step? source event = some next → Along step? allowed next rest

/-- What the steps of a replay put out, in order. -/
def trace {α : Type*} (step? : σ → ε → Option σ) (output : σ → ε → List α) : σ → List ε → List α
  | _, [] => []
  | source, event :: rest =>
      output source event ++ (step? source event).elim [] fun next => trace step? output next rest

variable {step? : σ → ε → Option σ} {source target : σ} {events first second : List ε}

@[simp] theorem run?_nil : run? step? source [] = some source := rfl

theorem run?_cons_iff {event : ε} : run? step? source (event :: events) = some target ↔
    ∃ next, step? source event = some next ∧ run? step? next events = some target :=
  Option.bind_eq_some_iff

theorem trace_cons {α : Type*} {output : σ → ε → List α} {event : ε} {next : σ}
    (stepped : step? source event = some next) : trace step? output source (event :: events) =
      output source event ++ trace step? output next events := by
  rw [trace, stepped]
  rfl

/-- A replay can be cut between any two events, and two replays join at a shared state. -/
theorem run?_append_iff : run? step? source (first ++ second) = some target ↔
    ∃ middle, run? step? source first = some middle ∧ run? step? middle second = some target := by
  induction first generalizing source with
  | nil => simp
  | cons event rest ih =>
    simp only [List.cons_append, run?_cons_iff, ih]
    constructor
    · rintro ⟨next, stepped, middle, run, later⟩
      exact ⟨middle, ⟨next, stepped, run⟩, later⟩
    · rintro ⟨middle, ⟨next, stepped, run⟩, later⟩
      exact ⟨next, stepped, middle, run, later⟩

/-- A property that the steps of permitted events preserve holds at the endpoint of every replay of
such events. -/
theorem run?_preserves_of {invariant : σ → Prop} {permitted : ε → Prop}
    (step : ∀ source event next, permitted event → invariant source →
      step? source event = some next → invariant next)
    (tape : ∀ event ∈ events, permitted event)
    (initial : invariant source) (run : run? step? source events = some target) :
    invariant target := by
  induction events generalizing source with
  | nil => cases run; exact initial
  | cons event rest ih =>
    obtain ⟨next, stepped, run⟩ := run?_cons_iff.mp run
    exact ih (fun other member => tape other (List.mem_cons_of_mem _ member))
      (step source event next (tape event (List.mem_cons_self ..)) initial stepped) run

/-- A property that every step preserves holds at the endpoint of every replay. -/
theorem run?_preserves {invariant : σ → Prop}
    (step : ∀ source event next, invariant source → step? source event = some next → invariant next)
    (initial : invariant source) (run : run? step? source events = some target) :
    invariant target := by
  refine @run?_preserves_of σ ε step? source target events invariant (fun _ => True) ?_ ?_ initial run
  · exact fun source event next _ holds => step source event next holds
  · exact fun _ _ => trivial

/-- What allowed steps preserve holds at the endpoint of a replay that takes only allowed steps. -/
theorem run?_preserves_along {invariant : σ → Prop} {allowed : σ → ε → Prop}
    (step : ∀ source event next, invariant source → allowed source event →
      step? source event = some next → invariant next)
    (initial : invariant source) (run : run? step? source events = some target)
    (taken : Along step? allowed source events) : invariant target := by
  induction events generalizing source with
  | nil => cases run; exact initial
  | cons event rest ih =>
    obtain ⟨next, stepped, run⟩ := run?_cons_iff.mp run
    exact ih (step source event next initial taken.1 stepped) run (taken.2 next stepped)

/-- A replay of allowed steps through good states takes steps of which more is known. -/
theorem along_of_throughout {invariant good : σ → Prop} {allowed known : σ → ε → Prop}
    (keeps : ∀ source event next, invariant source → allowed source event →
      step? source event = some next → invariant next)
    (implies : ∀ source event next, invariant source → good source →
      step? source event = some next → known source event)
    (initial : invariant source) (run : run? step? source events = some target)
    (visited : Throughout step? good source events) (taken : Along step? allowed source events) :
    Along step? known source events := by
  induction events generalizing source with
  | nil => trivial
  | cons event rest ih =>
    obtain ⟨next, stepped, run⟩ := run?_cons_iff.mp run
    refine ⟨implies source event next initial visited.1 stepped, ?_⟩
    intro other same
    obtain rfl : other = next := Option.some.inj (same.symm.trans stepped)
    exact ih (keeps source event other initial taken.1 stepped) run (visited.2 other stepped)
      (taken.2 other stepped)

/-- A property that no step can establish held at the source if it holds at the endpoint. -/
theorem run?_reflects {property : σ → Prop}
    (step : ∀ source event next, step? source event = some next → property next → property source)
    (run : run? step? source events = some target) (endpoint : property target) :
    property source := by
  induction events generalizing source with
  | nil => cases run; exact endpoint
  | cons event rest ih =>
    obtain ⟨next, stepped, run⟩ := run?_cons_iff.mp run
    exact step source event next stepped (ih run)

/-- Machines that answer each event alike from related states answer every tape alike. -/
theorem run?_lockstep {τ : Type*} {other? : τ → ε → Option τ} {related : σ → τ → Prop}
    (step : ∀ source mirror event, related source mirror →
      Option.Rel related (step? source event) (other? mirror event))
    {mirror : τ} (start : related source mirror) :
    Option.Rel related (run? step? source events) (run? other? mirror events) := by
  induction events generalizing source mirror with
  | nil => exact .some start
  | cons event rest ih =>
    have first := step source mirror event start
    simp only [run?]
    generalize step? source event = next at first ⊢
    generalize other? mirror event = image at first ⊢
    cases first with
    | none => exact .none
    | some related => exact ih related

/-- What one machine replays, the other does from a related state, to a related endpoint. -/
theorem run?_mirrored {τ : Type*} {other? : τ → ε → Option τ} {related : σ → τ → Prop}
    (step : ∀ source mirror event, related source mirror →
      Option.Rel related (step? source event) (other? mirror event))
    {mirror : τ} (start : related source mirror) (run : run? step? source events = some target) :
    ∃ image, run? other? mirror events = some image ∧ related target image := by
  have together : Option.Rel related (run? step? source events) (run? other? mirror events) :=
    run?_lockstep step start
  rw [run] at together
  generalize run? other? mirror events = image at together ⊢
  cases together with
  | some related => exact ⟨_, rfl, related⟩

/-- A machine that follows each step of another follows its replays. -/
theorem run?_followed {τ : Type*} {other? : τ → ε → Option τ} {related : σ → τ → Prop}
    (step : ∀ source mirror event next, related source mirror → step? source event = some next →
      ∃ image, other? mirror event = some image ∧ related next image)
    {mirror : τ} (start : related source mirror) (run : run? step? source events = some target) :
    ∃ image, run? other? mirror events = some image ∧ related target image := by
  induction events generalizing source mirror with
  | nil =>
    cases run
    exact ⟨mirror, rfl, start⟩
  | cons event rest ih =>
    obtain ⟨next, stepped, run⟩ := run?_cons_iff.mp run
    obtain ⟨middle, taken, here⟩ := step source mirror event next start stepped
    obtain ⟨image, later, there⟩ := ih here run
    exact ⟨image, run?_cons_iff.mpr ⟨middle, taken, later⟩, there⟩

/-- Whether a replay takes allowed steps only can be computed. -/
instance Along.decidable {allowed : σ → ε → Prop} [∀ source event, Decidable (allowed source event)] :
    (source : σ) → (events : List ε) → Decidable (Along step? allowed source events)
  | _, [] => .isTrue trivial
  | source, event :: rest =>
      match stepped : step? source event with
      | none => decidable_of_iff (allowed source event) <| by simp [Along, stepped]
      | some next =>
          have : Decidable (Along step? allowed next rest) := Along.decidable next rest
          decidable_of_iff (allowed source event ∧ Along step? allowed next rest) <| by
            simp [Along, stepped]

/-- Whether a replay visits good states only can be computed. -/
instance Throughout.decidable {good : σ → Prop} [∀ source, Decidable (good source)] :
    (source : σ) → (events : List ε) → Decidable (Throughout step? good source events)
  | source, [] => inferInstanceAs (Decidable (good source))
  | source, event :: rest =>
      match stepped : step? source event with
      | none => decidable_of_iff (good source) <| by simp [Throughout, stepped]
      | some next =>
          have : Decidable (Throughout step? good next rest) := Throughout.decidable next rest
          decidable_of_iff (good source ∧ Throughout step? good next rest) <| by
            simp [Throughout, stepped]

/-- A replay visits its source. -/
theorem Throughout.start {good : σ → Prop} (visited : Throughout step? good source events) :
    good source := by
  cases events with
  | nil => exact visited
  | cons event rest => exact visited.1

/-- What steps into good states preserve holds at the endpoint of a replay that visits only such. -/
theorem run?_preserves_throughout {invariant good : σ → Prop}
    (step : ∀ source event next, invariant source → good next →
      step? source event = some next → invariant next)
    (initial : invariant source) (run : run? step? source events = some target)
    (visited : Throughout step? good source events) : invariant target := by
  induction events generalizing source with
  | nil => cases run; exact initial
  | cons event rest ih =>
    obtain ⟨next, stepped, run⟩ := run?_cons_iff.mp run
    have later := visited.2 next stepped
    exact ih (step source event next initial later.start stepped) run later

/-- The endpoint of a replay is a state it visits. -/
theorem Throughout.endpoint {good : σ → Prop} (visited : Throughout step? good source events)
    (run : run? step? source events = some target) : good target := by
  induction events generalizing source with
  | nil => cases run; exact visited
  | cons event rest ih =>
    obtain ⟨next, stepped, run⟩ := run?_cons_iff.mp run
    exact ih (visited.2 next stepped) run

/-- A property of every state that can still move is decided by the endpoint of a replay. -/
theorem throughout_iff_endpoint {good : σ → Prop}
    (moves : ∀ source event next, step? source event = some next → good source)
    (run : run? step? source events = some target) :
    Throughout step? good source events ↔ good target := by
  refine ⟨fun visited => visited.endpoint run, fun endpoint => ?_⟩
  induction events generalizing source with
  | nil => cases run; exact endpoint
  | cons event rest ih =>
    obtain ⟨next, stepped, run⟩ := run?_cons_iff.mp run
    refine ⟨moves source event next stepped, ?_⟩
    intro other same
    obtain rfl : other = next := Option.some.inj (same.symm.trans stepped)
    exact ih run

/-- If a step into a live state keeps `good` exactly when it is `allowed`, then a replay that ends
live visits only good states exactly when it takes only allowed steps. -/
theorem throughout_iff_along {invariant good live : σ → Prop} {allowed : σ → ε → Prop}
    (keeps : ∀ source event next, invariant source → step? source event = some next → invariant next)
    (lived : ∀ source event next, step? source event = some next → live next → live source)
    (exact_step : ∀ source event next, invariant source → good source → live next →
      step? source event = some next → (good next ↔ allowed source event))
    (initial : invariant source) (start : good source)
    (run : run? step? source events = some target) (endpoint : live target) :
    Throughout step? good source events ↔ Along step? allowed source events := by
  induction events generalizing source with
  | nil => exact ⟨fun _ => trivial, fun _ => start⟩
  | cons event rest ih =>
    obtain ⟨next, stepped, run⟩ := run?_cons_iff.mp run
    have only (other : σ) (same : step? source event = some other) : other = next :=
      Option.some.inj (same.symm.trans stepped)
    have here := exact_step source event next initial start (run?_reflects lived run endpoint) stepped
    have there := fun nextGood => ih (keeps source event next initial stepped) nextGood run
    constructor
    · rintro ⟨-, visited⟩
      have nextVisited := visited next stepped
      refine ⟨here.mp nextVisited.start, ?_⟩
      intro other same
      exact only other same ▸ (there nextVisited.start).mp nextVisited
    · rintro ⟨permitted, taken⟩
      refine ⟨start, ?_⟩
      intro other same
      exact only other same ▸ (there (here.mpr permitted)).mpr (taken next stepped)

end UringServer.Replay
