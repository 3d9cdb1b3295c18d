import Mathlib.Data.List.Perm.Basic

/-! # Stacks that lend their elements

A pop hands out the top of the stack, or nothing when there is none. A put takes back an element that
is handed out and lays it on top; nothing else can be put. Elements move between the stack and the
borrowers; none is made or lost.
-/

namespace UringServer.Lifo

variable {α : Type*}

/-- What a borrower does. -/
inductive Op (α : Type*) where
  | pop
  | put (element : α)

/-- The stack with its top first, the elements handed out, and what the pops returned, oldest first. -/
structure Lending (α : Type*) where
  stack : List α
  lent : List α
  results : List (Option α)

/-- A stack of which nothing is handed out. -/
def Lending.of (stack : List α) : Lending α := ⟨stack, [], []⟩

variable [DecidableEq α]

def step? (s : Lending α) : Op α → Option (Lending α)
  | .pop =>
      match s.stack with
      | [] => some { s with results := s.results ++ [none] }
      | top :: rest => some ⟨rest, top :: s.lent, s.results ++ [some top]⟩
  | .put element =>
      if element ∈ s.lent then
        some ⟨element :: s.stack, s.lent.erase element, s.results⟩
      else none

/-- One operation moves at most one element. -/
theorem step?_perm {s next : Lending α} {op : Op α} (stepped : step? s op = some next) :
    (next.stack ++ next.lent).Perm (s.stack ++ s.lent) := by
  cases op with
  | pop =>
    simp only [step?] at stepped
    split at stepped
    · cases stepped
      exact .refl _
    · next top rest stack =>
      cases stepped
      rw [stack]
      exact List.perm_middle
  | put element =>
    simp only [step?] at stepped
    split_ifs at stepped with lent
    cases stepped
    exact List.perm_middle.symm.trans ((List.perm_cons_erase lent).symm.append_left s.stack)

end UringServer.Lifo
