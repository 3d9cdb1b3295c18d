import UringServer.Lib.IndexChain
import UringServer.Model.BufPool
import UringServer.Proofs.Carving

/-! # The free list of the log buffers

`FreeList` relates the nodes of a pool to the list of ids that are free, the next one to be popped
first. Initialising, popping and putting keep it. Popped nodes are not listed; their links are stale
and no operation reads them.
-/

namespace UringServer

open Fallible IndexChain

theorem bufpoolPop_eq_none_iff {self : Bufpool} :
    bufpoolPop self = none ↔ self.freelistHead = none := by
  unfold bufpoolPop
  cases self.freelistHead <;> simp

theorem bufpoolPop_eq_some_iff {self next : Bufpool} {regbuf : BufpoolFreebuf} :
    bufpoolPop self = some (regbuf, next) ↔ ∃ node, self.freelistHead = some node ∧
      regbuf = self.freelistMem node ∧
      next = { self with freelistHead := (self.freelistMem node).next } := by
  unfold bufpoolPop
  cases self.freelistHead with
  | none => simp
  | some node => simp [eq_comm]

/-- The links of the free list. -/
def Bufpool.next (pool : Bufpool) : ℕ → Option ℕ := fun node => (pool.freelistMem node).next

theorem bufpoolPut_next (pool : Bufpool) (bid : ℕ) :
    (bufpoolPut pool bid).next = Function.update pool.next bid pool.freelistHead := by
  funext node
  simp only [Bufpool.next, bufpoolPut, Function.update_apply]
  split <;> rfl

theorem bufpoolLink_next (base : Ptr) (bufSize : ℕ) (pool : Bufpool) (i : ℕ) :
    (bufpoolLink base bufSize pool i).next = Function.update pool.next i pool.freelistHead := by
  funext node
  simp only [Bufpool.next, bufpoolLink, Function.update_apply]
  split <;> rfl

/-- An id that is free is not out. -/
theorem disjoint_of_perm_range {free out : List ℕ} {entries : ℕ}
    (all : (free ++ out).Perm (List.range entries)) : free.Disjoint out :=
  List.disjoint_of_nodup_append (all.nodup_iff.mpr List.nodup_range)

/-- Every node knows its id and its slice of the allocation, and the links list the free ids. -/
structure FreeList (bufSize entries : ℕ) (pool : Bufpool) (free : List ℕ) : Prop where
  nodes : ∀ k < entries, (pool.freelistMem k).bid = k ∧ (pool.freelistMem k).iov = k
  carved : ∀ k < entries, pool.iovecs k = Block.bufpool.carve bufSize k
  chain : Chain pool.next pool.freelistHead free

namespace FreeList

variable {bufSize entries node bid : ℕ} {pool : Bufpool} {free rest : List ℕ}

/-- Without a free id, a pop returns null. -/
theorem pop_nil (list : FreeList bufSize entries pool []) : bufpoolPop pool = none :=
  bufpoolPop_eq_none_iff.mpr (list.chain.eq_nil_iff.mp rfl)

/-- A pop takes the first free id. -/
theorem pop_cons (list : FreeList bufSize entries pool (node :: rest)) :
    pool.freelistHead = some node ∧ ∃ next, bufpoolPop pool = some (pool.freelistMem node, next) ∧
      next.iovecs = pool.iovecs ∧ FreeList bufSize entries next rest := by
  obtain ⟨head, tail⟩ := list.chain.of_cons
  refine ⟨head, _, bufpoolPop_eq_some_iff.mpr ⟨node, head, rfl, rfl⟩, rfl, ?_⟩
  exact ⟨list.nodes, list.carved, tail⟩

/-- A put makes an id that is not free the first free one. -/
theorem put (list : FreeList bufSize entries pool free) (fresh : bid ∉ free) :
    FreeList bufSize entries (bufpoolPut pool bid) (bid :: free) := by
  refine ⟨?_, list.carved, ?_⟩
  · intro k inside
    simp only [bufpoolPut, Function.update_apply]
    split
    · next same => exact same ▸ list.nodes k inside
    · exact list.nodes k inside
  · rw [bufpoolPut_next]
    exact list.chain.push fresh

/-- One round of `bufpool_init`. -/
private theorem link (list : FreeList bufSize entries pool free) (narrow : entries < 2 ^ 16)
    (fresh : entries ∉ free) :
    FreeList bufSize (entries + 1) (bufpoolLink ⟨.bufpool, 0⟩ bufSize pool entries)
      (entries :: free) := by
  refine ⟨?_, ?_, ?_⟩
  · intro k inside
    simp only [bufpoolLink, Function.update_apply]
    split
    · next same => exact ⟨by rw [same]; exact Nat.mod_eq_of_lt narrow, same.symm⟩
    · exact list.nodes k (by omega)
  · intro k inside
    simp only [bufpoolLink, Function.update_apply]
    split
    · next same => simp [same, Ptr.add, Block.carve]
    · exact list.carved k (by omega)
  · rw [bufpoolLink_next]
    exact list.chain.push fresh

end FreeList

theorem bufpoolInit_returns_iff {registerBuffers : ℤ} {iovecs : ℕ → Iovec}
    {freebs : ℕ → BufpoolFreebuf} {bufSize entries : ℕ} :
    (∃ pool, bufpoolInit registerBuffers iovecs freebs bufSize entries = .ok pool) ↔
      0 ≤ registerBuffers := by
  simp only [bufpoolInit, bind_ok_iff, assertPositive_ok_iff, pure_ok_iff, exists_const, exists_and_left,
    exists_eq', and_true]

/-- `bufpool_init` lists every id, the last one carved first. -/
theorem bufpoolInit_freeList {registerBuffers : ℤ} {iovecs : ℕ → Iovec} {freebs : ℕ → BufpoolFreebuf}
    {bufSize entries : ℕ} {pool : Bufpool} (narrow : entries ≤ 2 ^ 16)
    (made : bufpoolInit registerBuffers iovecs freebs bufSize entries = .ok pool) :
    FreeList bufSize entries pool (List.range entries).reverse := by
  obtain ⟨_, -, done⟩ := bind_ok_iff.mp made
  obtain rfl := pure_ok_iff.mp done
  clear made done
  induction entries with
  | zero => exact ⟨by simp, by simp, .nil⟩
  | succ count ih =>
    rw [List.range_succ, List.foldl_append, List.foldl_cons, List.foldl_nil, List.reverse_concat]
    exact (ih (by omega)).link (by omega) (by simp)

end UringServer
