import Mathlib.Data.List.Perm.Basic
import Mathlib.Data.List.Nodup
import Mathlib.Logic.Function.Basic

/-! # Intrusive lists over an index array

Nodes live in an array and name their successor by index; `none` ends a list. `Chain next head nodes`
says that following `next` from `head` visits exactly `nodes`. A chain is determined by its
head, visits no node twice, and does not depend on the links of nodes outside of it, so a popped
node may keep a stale link and a pushed node may overwrite one.
-/

namespace UringServer.IndexChain

/-- Following `next` from `head` visits exactly the listed nodes and then stops. -/
inductive Chain (next : ℕ → Option ℕ) : Option ℕ → List ℕ → Prop
  | nil : Chain next none []
  | cons {node : ℕ} {rest : List ℕ} (tail : Chain next (next node) rest) :
      Chain next (some node) (node :: rest)

namespace Chain

variable {next other : ℕ → Option ℕ} {head : Option ℕ} {node : ℕ} {nodes rest : List ℕ}

theorem eq_nil_iff (chain : Chain next head nodes) : nodes = [] ↔ head = none := by
  cases chain with
  | nil => simp
  | cons tail => simp

/-- A chain from a node lists that node first and continues at its link. -/
theorem of_some (chain : Chain next (some node) nodes) :
    ∃ rest, nodes = node :: rest ∧ Chain next (next node) rest := by
  cases chain with
  | cons tail => exact ⟨_, rfl, tail⟩

/-- A chain that lists some node first has it as its head. -/
theorem of_cons (chain : Chain next head (node :: rest)) :
    head = some node ∧ Chain next (next node) rest := by
  cases chain with
  | cons tail => exact ⟨rfl, tail⟩

/-- Two lists that follow the same links from the same head are one list. -/
theorem unique (left : Chain next head nodes) : ∀ {others}, Chain next head others → nodes = others := by
  induction left with
  | nil => intro others right; exact ((right.eq_nil_iff).mpr rfl).symm
  | cons tail ih =>
    intro others right
    obtain ⟨rest, rfl, continued⟩ := right.of_some
    rw [ih continued]

/-- Only the links of the listed nodes matter. -/
theorem congr (chain : Chain next head nodes) (same : ∀ node ∈ nodes, other node = next node) :
    Chain other head nodes := by
  induction chain with
  | nil => exact .nil
  | @cons node rest tail ih =>
    refine .cons ?_
    rw [same node (List.mem_cons_self ..)]
    exact ih fun node member => same node (List.mem_cons_of_mem _ member)

/-- Linking a fresh node in front of a chain extends it. -/
theorem push (chain : Chain next head nodes) (fresh : node ∉ nodes) :
    Chain (Function.update next node head) (some node) (node :: nodes) := by
  refine .cons ?_
  rw [Function.update_self]
  refine chain.congr fun other member => ?_
  exact Function.update_of_ne (ne_of_mem_of_not_mem member fresh) _ _

/-- Every listed node heads a chain of its own, the rest of the list behind it. -/
theorem suffix (chain : Chain next head nodes) (member : node ∈ nodes) :
    ∃ before rest, nodes = before ++ node :: rest ∧ Chain next (some node) (node :: rest) := by
  induction chain with
  | nil => cases member
  | @cons first rest tail ih =>
    rcases List.mem_cons.mp member with rfl | member
    · exact ⟨[], rest, rfl, .cons tail⟩
    · obtain ⟨before, after, rfl, chain⟩ := ih member
      exact ⟨first :: before, after, rfl, chain⟩

/-- A finite chain is acyclic. -/
theorem nodup (chain : Chain next head nodes) : nodes.Nodup := by
  induction chain with
  | nil => exact List.nodup_nil
  | @cons node rest tail ih =>
    refine List.nodup_cons.mpr ⟨?_, ih⟩
    intro member
    obtain ⟨before, after, same, again⟩ := tail.suffix member
    have equal := congrArg List.length (Chain.unique (.cons tail) again)
    rw [same] at equal
    simp only [List.length_cons, List.length_append] at equal
    omega

end Chain

end UringServer.IndexChain
