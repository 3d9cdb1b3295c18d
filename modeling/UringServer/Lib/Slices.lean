import Mathlib.Order.CompletePartialOrder
import Mathlib.Order.SuccPred.IntervalSucc
import Mathlib.Algebra.Order.SuccPred
import Mathlib.Data.Nat.SuccPred
import Mathlib.Data.Set.Lattice

/-! # Memory cut into equal slices

A block of `count * size` positions is the disjoint union of `count` slices of `size` positions each.
Slices of size zero are empty.
-/

namespace UringServer.Slices

/-- Slice `k` when slices have `size` positions. -/
def slice (size k : ℕ) : Set ℕ := Set.Ico (k * size) (k * size + size)

private theorem slice_eq_Ico_succ (size : ℕ) : slice size = fun k => Set.Ico (k * size) ((k + 1) * size) := by
  funext k
  rw [slice, Nat.succ_mul]

/-- Distinct slices have no position in common. -/
theorem pairwise_disjoint (size : ℕ) : Pairwise (Function.onFun Disjoint (slice size)) := by
  have monotone : Monotone (· * size) := fun _ _ le => Nat.mul_le_mul_right size le
  rw [slice_eq_Ico_succ]
  exact monotone.pairwise_disjoint_on_Ico_succ

/-- The slice that a position lies in is the quotient of the position by the size. -/
theorem exists_mem_slice_iff {size count position : ℕ} :
    (∃ k < count, position ∈ slice size k) ↔ position < count * size := by
  constructor
  · rintro ⟨k, bound, -, upper⟩
    have := Nat.mul_le_mul_right size bound
    rw [Nat.succ_mul] at this
    omega
  · intro bound
    have positive : 0 < size := Nat.pos_of_mul_pos_left (Nat.zero_lt_of_lt bound)
    refine ⟨position / size, Nat.div_lt_of_lt_mul (Nat.mul_comm .. ▸ bound), ?_, ?_⟩
    · exact Nat.div_mul_le_self ..
    · exact Nat.lt_div_mul_add positive

end UringServer.Slices
