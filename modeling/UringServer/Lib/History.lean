import Mathlib.Data.List.Basic

/-! # Histories with causes

A history is the list of what a system has put out, oldest first. It is justified if every entry
has a cause among the entries before it. Justified histories grow entry by entry, and they carry over
to any other list that looks the same entry by entry.
-/

namespace UringServer.History

variable {ω : Type*} {cause : List ω → ω → Prop} {history added : List ω}

/-- Every entry is caused by the entries before it. -/
def Justified (cause : List ω → ω → Prop) (history : List ω) : Prop :=
  ∀ before entry after, history = before ++ entry :: after → cause before entry

@[simp] theorem justified_nil : Justified cause [] := by
  intro before entry after split
  simp at split

/-- A history grows by entries that are justified behind it. -/
theorem justified_append_iff : Justified cause (history ++ added) ↔
    Justified cause history ∧ Justified (fun before entry => cause (history ++ before) entry) added := by
  constructor
  · intro justified
    constructor
    · rintro before entry after rfl
      exact justified before entry (after ++ added) (by simp)
    · rintro before entry after rfl
      exact justified (history ++ before) entry after (by simp)
  · rintro ⟨old, new⟩ before entry after split
    rcases List.append_eq_append_iff.mp split with ⟨middle, rfl, rest⟩ | ⟨middle, rfl, rest⟩
    · exact new middle entry after rest
    · cases middle with
      | nil =>
        have here := new [] entry after rest.symm
        simpa using here
      | cons first middle =>
        obtain ⟨rfl, -⟩ := List.cons.inj rest
        exact old before _ middle rfl

theorem justified_singleton_iff {entry : ω} : Justified cause [entry] ↔ cause [] entry := by
  constructor
  · intro justified
    exact justified [] entry [] rfl
  · rintro here before other after split
    obtain ⟨rfl, same⟩ | ⟨rest, rfl, same⟩ := List.cons_eq_append_iff.mp split
    · cases same
      exact here
    · simp at same

theorem justified_pair_iff {first second : ω} :
    Justified cause [first, second] ↔ cause [] first ∧ cause [first] second := by
  have split : [first, second] = [first] ++ [second] := rfl
  rw [split, justified_append_iff, justified_singleton_iff, justified_singleton_iff, List.append_nil]

/-- What remains of a justified history is justified by what remains of the causes. -/
theorem Justified.filterMap {γ : Type*} {project : ω → Option γ} {seen : List γ → γ → Prop}
    (justified : Justified cause history)
    (implies : ∀ before entry x, project entry = some x → cause before entry →
      seen (before.filterMap project) x) : Justified seen (history.filterMap project) := by
  intro earlier x later split
  obtain ⟨front, back, rfl, rfl, rest⟩ := List.filterMap_eq_append_iff.mp split
  obtain ⟨skipped, entry, after, rfl, silent, here, -⟩ := List.filterMap_eq_cons_iff.mp rest
  have before : (front ++ skipped).filterMap project = front.filterMap project := by
    rw [List.filterMap_append, List.filterMap_eq_nil_iff.mpr silent, List.append_nil]
  rw [← before]
  exact implies _ entry x here (justified _ entry after (List.append_assoc ..).symm)

end UringServer.History
