import Mathlib.Algebra.Ring.Nat
import Mathlib.Algebra.BigOperators.Group.List.Basic
import Mathlib.Algebra.Order.BigOperators.Group.List

/-! # Positional writes to a file

A file is a list of bytes. A positional write replaces the bytes it covers, keeps the others and
fills a gap past the end, whatever the writes before it did. `Holds` says that the file consists
of given lines, each in a range of its own; a file that holds its lines is as long as all of them
together, so lines that were all written at offset zero are held only if there is at most one.
-/

namespace UringServer.PositionalFile

variable {α : Type*}

/-- Store `data` at `offset`; a gap between the old end and `offset` reads as `gap`. -/
def pwrite (gap : α) (file : List α) (offset : ℕ) (data : List α) : List α :=
  (file.take offset ++ List.replicate (offset - file.length) gap) ++ data ++
    file.drop (offset + data.length)

/-- At offset zero the data comes first and the old contents survive only past it. -/
theorem pwrite_zero (gap : α) (file data : List α) :
    pwrite gap file 0 data = data ++ file.drop data.length := by
  simp [pwrite]

private theorem pwrite_zero_length (gap : α) (file data : List α) :
    (pwrite gap file 0 data).length = max file.length data.length := by
  simp only [pwrite_zero, List.length_append, List.length_drop]
  omega

/-- Writes at offset zero never make the file longer than the longest of them. -/
theorem foldl_pwrite_zero_length (gap : α) (file : List α) (writes : List (List α)) :
    (writes.foldl (pwrite gap · 0 ·) file).length ≤ file.length ∨
      ∃ data ∈ writes, (writes.foldl (pwrite gap · 0 ·) file).length ≤ data.length := by
  induction writes generalizing file with
  | nil => exact .inl le_rfl
  | cons first rest ih =>
    have step := pwrite_zero_length gap file first
    rw [List.foldl_cons]
    rcases ih (pwrite gap file 0 first) with bound | ⟨data, member, bound⟩
    · rcases le_total file.length first.length with shorter | longer
      · exact .inr ⟨first, List.mem_cons_self .., by omega⟩
      · exact .inl (by omega)
    · exact .inr ⟨data, List.mem_cons_of_mem _ member, bound⟩

/-- The ranges `[offset, offset + length)` of the placed lines do not meet. -/
def Apart (placed : List (ℕ × List α)) : Prop :=
  placed.Pairwise fun a b => a.1 + a.2.length ≤ b.1 ∨ b.1 + b.2.length ≤ a.1

/-- Every line stands in full in a range of its own, and the file has no byte besides. -/
structure Holds (file : List α) (lines : List (List α)) : Prop where
  placed : ∃ offsets : List ℕ, offsets.length = lines.length ∧ Apart (offsets.zip lines) ∧
    ∀ entry ∈ offsets.zip lines, (file.drop entry.1).take entry.2.length = entry.2
  length : file.length = (lines.map List.length).sum

theorem holds_nil : Holds ([] : List α) [] :=
  ⟨⟨[], rfl, .nil, by simp⟩, rfl⟩

theorem holds_singleton (line : List α) : Holds line [line] := by
  refine ⟨⟨[0], rfl, List.pairwise_singleton _ _, ?_⟩, by simp⟩
  intro entry member
  obtain rfl : entry = (0, line) := by simpa using member
  simp

/-- Next to one line, every other nonempty line adds at least a byte to the total. -/
private theorem length_add_le_sum {lines : List (List α)} (nonempty : ∀ line ∈ lines, line ≠ [])
    {line : List α} (member : line ∈ lines) :
    line.length + (lines.length - 1) ≤ (lines.map List.length).sum := by
  classical
  have split := List.perm_cons_erase member
  have total := (split.map List.length).sum_eq
  have others : (lines.erase line).length ≤ ((lines.erase line).map List.length).sum := by
    rw [← List.length_map (f := List.length)]
    apply List.length_le_sum_of_one_le
    intro size sizeMem
    obtain ⟨other, otherMem, rfl⟩ := List.mem_map.mp sizeMem
    exact List.length_pos_iff.mpr (nonempty other (List.mem_of_mem_erase otherMem))
  have count := split.length_eq
  simp only [List.map_cons, List.sum_cons, List.length_cons] at total count
  omega

/-- A file no longer than one of several nonempty lines cannot hold them all. -/
theorem Holds.le_one {file : List α} {lines : List (List α)} (held : Holds file lines)
    (nonempty : ∀ line ∈ lines, line ≠ [])
    (short : lines ≠ [] → ∃ line ∈ lines, file.length ≤ line.length) : lines.length ≤ 1 := by
  by_cases empty : lines = []
  · simp [empty]
  · obtain ⟨line, member, bound⟩ := short empty
    have total := length_add_le_sum nonempty member
    rw [held.length] at bound
    omega

end UringServer.PositionalFile
