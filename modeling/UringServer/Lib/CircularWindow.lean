import Mathlib.Data.Int.ModEq
import Mathlib.Data.List.Perm.Basic
import Mathlib.Data.List.Range
import Mathlib.Logic.Function.Basic

/-! # Windows of circular buffers

`window slots size head count` reads `count` slots of a circular buffer from position `head`,
positions being free-running and reduced modulo `size`. Taking from the front and publishing at
the back are the two ends of one list, and a write through the buffer is either a replacement at
one place of that list or outside of it. Only `head % size` matters, so free-running counters of
any width that `size` divides describe the same window.
-/

namespace UringServer.CircularWindow

variable {α : Type*}

/-- The contents of `count` consecutive positions from `head`. -/
def window (slots : ℕ → α) (size head count : ℕ) : List α :=
  (List.range count).map fun i => slots ((head + i) % size)

@[simp] theorem window_length (slots : ℕ → α) (size head count : ℕ) :
    (window slots size head count).length = count := by
  simp [window]

/-- The front of a window is its oldest slot. -/
theorem window_succ_front (slots : ℕ → α) (size head count : ℕ) :
    window slots size head (count + 1) =
      slots (head % size) :: window slots size (head + 1) count := by
  simp only [window, List.range_succ_eq_map, List.map_cons, List.map_map, Nat.add_zero]
  congr 1
  apply List.map_congr_left
  intro i _
  simp only [Function.comp_apply, show head + (i + 1) = head + 1 + i by omega]

/-- The back of a window is the slot published last. -/
theorem window_succ_back (slots : ℕ → α) (size head count : ℕ) :
    window slots size head (count + 1) =
      window slots size head count ++ [slots ((head + count) % size)] := by
  simp only [window, List.range_succ, List.map_append, List.map_cons, List.map_nil]

/-- Counters reduced modulo any multiple of the size name the same window. -/
theorem window_mod (slots : ℕ → α) (size period head count : ℕ) (divides : size ∣ period) :
    window slots size (head % period) count = window slots size head count := by
  apply List.map_congr_left
  intro i _
  rw [Nat.add_mod, Nat.mod_mod_of_dvd _ divides, ← Nat.add_mod]

/-- Positions less than one lap apart lie in different slots. -/
theorem slot_injective {size head i j : ℕ} (first : i < size) (second : j < size)
    (same : (head + i) % size = (head + j) % size) : i = j := by
  have congruent : i % size = j % size := Nat.ModEq.add_left_cancel' head same
  rwa [Nat.mod_eq_of_lt first, Nat.mod_eq_of_lt second] at congruent

/-- A write outside the window leaves its contents alone. -/
private theorem window_update_outside (slots : ℕ → α) (size head count slot : ℕ) (value : α)
    (outside : ∀ i < count, (head + i) % size ≠ slot) :
    window (Function.update slots slot value) size head count = window slots size head count := by
  apply List.map_congr_left
  intro i member
  exact Function.update_of_ne (outside i (List.mem_range.mp member)) _ _

/-- A write inside a window of at most one lap replaces exactly one entry. -/
private theorem window_update_inside (slots : ℕ → α) (size head count place : ℕ) (value : α)
    (inside : place < count) (lap : count ≤ size) :
    window (Function.update slots ((head + place) % size) value) size head count =
      (window slots size head count).set place value := by
  apply List.ext_getElem
  · simp
  · intro i leftBound rightBound
    simp only [window_length] at leftBound
    simp only [window, List.getElem_map, List.getElem_range, List.getElem_set]
    by_cases same : place = i
    · subst same
      simp
    · rw [if_neg same, Function.update_of_ne]
      intro equal
      exact same (slot_injective (by omega) (by omega) equal).symm

/-- Writing inside a window that is not full and publishing one slot more. -/
theorem window_publish_inside (slots : ℕ → α) (size head count place : ℕ) (value : α)
    (inside : place < count) (room : count < size) :
    window (Function.update slots ((head + place) % size) value) size head (count + 1) =
      (window slots size head count).set place value ++ [slots ((head + count) % size)] := by
  have apart : (head + count) % size ≠ (head + place) % size := by
    intro same
    have := slot_injective room (by omega) same
    omega
  rw [window_succ_back, window_update_inside _ _ _ _ _ _ inside room.le, Function.update_of_ne apart]

/-- Writing outside a window and publishing one slot more, the written one or another. -/
theorem window_publish_outside (slots : ℕ → α) (size head count slot : ℕ) (value : α)
    (outside : ∀ i < count, (head + i) % size ≠ slot) :
    window (Function.update slots slot value) size head (count + 1) =
      window slots size head count ++ [Function.update slots slot value ((head + count) % size)] := by
  rw [window_succ_back, window_update_outside _ _ _ _ _ _ outside]

/-- A window of one whole lap shows every slot, wherever it starts. -/
theorem mem_lap_iff {slots : ℕ → α} {size head : ℕ} {value : α} :
    value ∈ window slots size head size ↔ ∃ slot < size, slots slot = value := by
  constructor
  · intro member
    obtain ⟨i, inside, rfl⟩ := List.mem_map.mp member
    exact ⟨(head + i) % size, Nat.mod_lt _ (Nat.zero_lt_of_lt (List.mem_range.mp inside)), rfl⟩
  · rintro ⟨slot, inside, rfl⟩
    have positive := Nat.zero_lt_of_lt inside
    have before := Nat.mod_lt head positive
    refine List.mem_map.mpr ⟨(slot + size - head % size) % size, ?_, ?_⟩
    · exact List.mem_range.mpr (Nat.mod_lt _ positive)
    · have meets : (head + (slot + size - head % size) % size) % size = slot := by
        calc
          (head + (slot + size - head % size) % size) % size
              = (head % size + (slot + size - head % size)) % size := by
            rw [Nat.add_mod_mod, Nat.mod_add_mod]
          _ = (slot + size) % size := by congr 1; omega
          _ = slot := by rw [Nat.add_mod_right, Nat.mod_eq_of_lt inside]
      exact congrArg slots meets

theorem getElem_window (slots : ℕ → α) (size head count place : ℕ)
    (bound : place < (window slots size head count).length) :
    (window slots size head count)[place] = slots ((head + place) % size) := by
  simp only [window, List.getElem_map, List.getElem_range]

end UringServer.CircularWindow
