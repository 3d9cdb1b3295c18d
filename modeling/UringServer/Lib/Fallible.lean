import Mathlib.Logic.Basic

/-! # Sequencing computations that may fail

A `do` block over `Except` succeeds when each of its steps does and fails with the error of the
first step that does not.
-/

namespace UringServer.Fallible

variable {ε : Type*} {α β : Type} {first : Except ε α} {continue_ : α → Except ε β}

theorem bind_ok_iff {result : β} : (first >>= continue_) = .ok result ↔
    ∃ value, first = .ok value ∧ continue_ value = .ok result := by
  cases first <;> simp [bind, Except.bind]

theorem bind_error_iff {error : ε} : (first >>= continue_) = .error error ↔
    first = .error error ∨ ∃ value, first = .ok value ∧ continue_ value = .error error := by
  cases first <;> simp [bind, Except.bind]

theorem toOption_eq_some_iff {result : Except ε α} {value : α} :
    result.toOption = some value ↔ result = .ok value := by
  cases result <;> simp [Except.toOption]

@[simp] theorem pure_ok_iff {value result : α} :
    (pure value : Except ε α) = .ok result ↔ value = result := by
  simp [pure, Except.pure]

@[simp] theorem pure_ne_error {value : α} {error : ε} :
    ((pure value : Except ε α) = .error error) ↔ False := by
  simp [pure, Except.pure]

/-- Where the error is known, a result is known to come from having none. -/
theorem none_iff_ok {result : Except ε α} {reason : Option ε}
    (errors : ∀ e, result = .error e ↔ reason = some e) :
    reason = none ↔ ∃ value, result = .ok value := by
  cases result with
  | ok value =>
    refine ⟨fun _ => ⟨value, rfl⟩, fun _ => Option.eq_none_iff_forall_ne_some.mpr fun e failed => ?_⟩
    cases (errors e).mpr failed
  | error e => simp [(errors e).mp rfl]

end UringServer.Fallible
