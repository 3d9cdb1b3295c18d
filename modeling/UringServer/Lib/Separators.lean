import Mathlib.Data.List.Basic

/-! # Texts with separators

A part of a text that ends at a character it does not contain can be read back: two texts that agree
have the same first part. This still holds of the front of a text, as far as that has the separator, and
for a whole stream of parts that each end with it.
-/

namespace UringServer.Separators

variable {α : Type*} {separator : α} {xs ys before after : List α}

/-- Two texts that agree up to their first separator agree before and after it. -/
theorem append_separator_inj (left : separator ∉ xs) (right : separator ∉ ys)
    (same : xs ++ separator :: before = ys ++ separator :: after) : xs = ys ∧ before = after := by
  induction xs generalizing ys with
  | nil =>
    cases ys with
    | nil => simpa using same
    | cons y ys =>
      obtain ⟨rfl, -⟩ := List.cons.inj same
      exact absurd (List.mem_cons_self ..) right
  | cons x xs ih =>
    cases ys with
    | nil =>
      obtain ⟨rfl, -⟩ := List.cons.inj same
      exact absurd (List.mem_cons_self ..) left
    | cons y ys =>
      obtain ⟨rfl, rest⟩ := List.cons.inj same
      obtain ⟨rfl, rfl⟩ := ih (fun member => left (List.mem_cons_of_mem _ member))
        (fun member => right (List.mem_cons_of_mem _ member)) rest
      exact ⟨rfl, rfl⟩

/-- A cut behind the first separator leaves what is before it. -/
theorem take_separator_inj {n : ℕ} (left : separator ∉ xs) (right : separator ∉ ys)
    (short : xs.length < n) (brief : ys.length < n)
    (same : (xs ++ separator :: before).take n = (ys ++ separator :: after).take n) :
    xs = ys ∧ before.take (n - (xs.length + 1)) = after.take (n - (xs.length + 1)) := by
  have cut {zs rest : List α} (fits : zs.length < n) :
      (zs ++ separator :: rest).take n = zs ++ separator :: rest.take (n - (zs.length + 1)) := by
    have split : n - zs.length = n - (zs.length + 1) + 1 := by omega
    rw [List.take_append, List.take_of_length_le (Nat.le_of_lt fits), split, List.take_succ_cons]
  rw [cut short, cut brief] at same
  obtain ⟨rfl, rest⟩ := append_separator_inj left right same
  exact ⟨rfl, rest⟩

/-- A part ends with the separator and contains it nowhere else. -/
def Terminated (separator : α) (part : List α) : Prop :=
  ∃ front, separator ∉ front ∧ part = front ++ [separator]

/-- A stream of terminated parts determines the parts. -/
theorem flatten_terminated_inj {first second : List (List α)}
    (left : ∀ part ∈ first, Terminated separator part) (right : ∀ part ∈ second, Terminated separator part)
    (same : first.flatten = second.flatten) : first = second := by
  induction first generalizing second with
  | nil =>
    cases second with
    | nil => rfl
    | cons part rest =>
      obtain ⟨front, -, rfl⟩ := right part (List.mem_cons_self ..)
      simp at same
  | cons part rest ih =>
    obtain ⟨front, free, rfl⟩ := left part (List.mem_cons_self ..)
    cases second with
    | nil => simp at same
    | cons part' rest' =>
      obtain ⟨front', free', rfl⟩ := right part' (List.mem_cons_self ..)
      simp only [List.flatten_cons, List.append_assoc, List.singleton_append] at same
      obtain ⟨rfl, later⟩ := append_separator_inj free free' same
      rw [ih (fun part member => left part (List.mem_cons_of_mem _ member))
        (fun part member => right part (List.mem_cons_of_mem _ member)) later]

end UringServer.Separators
