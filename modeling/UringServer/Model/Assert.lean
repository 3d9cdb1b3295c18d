import UringServer.Lib.Fallible
import Mathlib.Data.Int.Order.Basic

/-! # Checks that end the process

`ASSERT_POSITIVE` and `ASSERT_NOT_NULL` print to stderr, raise `SIGTRAP` and exit. Some pointers
are used without a check; using one that is null ends the process as well. `Stop` records which
of these happened.
-/

namespace UringServer

open Fallible

/-- The pointers that `ASSERT_NOT_NULL` is applied to. -/
inductive Pointer where
  | sqe
  | regbuf
  | out
deriving DecidableEq, Repr

/-- Why the process ended. -/
inductive Stop where
  | assertPositive (code : ℤ)
  | assertNotNull (pointer : Pointer)
  | nullSqe
deriving DecidableEq, Repr

/-- `ASSERT_POSITIVE`: only negative codes fail. -/
def assertPositive (code : ℤ) : Except Stop Unit :=
  if code < 0 then .error (.assertPositive code) else .ok ()

/-- `ASSERT_NOT_NULL`, with `none` for the null pointer. -/
def assertNotNull {α : Type} (pointer : Pointer) : Option α → Except Stop α
  | none => .error (.assertNotNull pointer)
  | some value => .ok value

/-- An unchecked use of the result of `io_uring_get_sqe`. -/
def useSqe {α : Type} : Option α → Except Stop α
  | none => .error .nullSqe
  | some value => .ok value

@[simp] theorem assertPositive_ok_iff {code : ℤ} {result : Unit} :
    assertPositive code = .ok result ↔ 0 ≤ code := by
  unfold assertPositive
  split
  · next negative => simp [negative]
  · next positive => simpa using positive

@[simp] theorem assertPositive_error_iff {code : ℤ} {stop : Stop} :
    assertPositive code = .error stop ↔ code < 0 ∧ stop = .assertPositive code := by
  unfold assertPositive
  split
  · next negative => simp [negative, eq_comm]
  · next positive => simp [positive]

@[simp] theorem assertNotNull_ok_iff {α : Type} {pointer : Pointer} {value : Option α}
    {result : α} : assertNotNull pointer value = .ok result ↔ value = some result := by
  cases value <;> simp [assertNotNull]

@[simp] theorem assertNotNull_error_iff {α : Type} {pointer : Pointer} {value : Option α}
    {stop : Stop} : assertNotNull pointer value = .error stop ↔
      value = none ∧ stop = .assertNotNull pointer := by
  cases value <;> simp [assertNotNull, eq_comm]

@[simp] theorem useSqe_ok_iff {α : Type} {value : Option α} {result : α} :
    useSqe value = .ok result ↔ value = some result := by
  cases value <;> simp [useSqe]

@[simp] theorem useSqe_error_iff {α : Type} {value : Option α} {stop : Stop} :
    useSqe value = .error stop ↔ value = none ∧ stop = .nullSqe := by
  cases value <;> simp [useSqe, eq_comm]

end UringServer
