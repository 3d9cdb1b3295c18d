import UringServer.Lib.Lifo
import UringServer.Lib.Replay
import UringServer.Proofs.FreeList

/-! # The pool as a stack of ids

However pops and puts follow each other, as long as only ids that are out are put, the intrusive list
answers like a stack that lends its elements. Stale links of popped nodes never show.
-/

namespace UringServer

open Replay Lifo

/-- A pool in use: its state, the ids popped and not put back, and what the pops returned, oldest
first. -/
structure PoolRun where
  pool : Bufpool
  out : List ℕ
  results : List (Option BufpoolFreebuf)

namespace PoolRun

/-- A pool of which nothing is out. -/
def of (pool : Bufpool) : PoolRun := ⟨pool, [], []⟩

/-- `bufpool_pop`, or `bufpool_put` of an id that is out. -/
def step? (s : PoolRun) : Op ℕ → Option PoolRun
  | .pop =>
      match bufpoolPop s.pool with
      | none => some { s with results := s.results ++ [none] }
      | some (freebuf, pool) => some ⟨pool, freebuf.bid :: s.out, s.results ++ [some freebuf]⟩
  | .put bid =>
      if bid ∈ s.out then some ⟨bufpoolPut s.pool bid, s.out.erase bid, s.results⟩ else none

/-- The links of the pool list the stack, and the ids of the two sides agree. -/
structure Mirrors (bufSize entries : ℕ) (s : PoolRun) (stack : Lending ℕ) : Prop where
  list : FreeList bufSize entries s.pool stack.stack
  all : (stack.stack ++ stack.lent).Perm (List.range entries)
  out : s.out = stack.lent
  results : s.results.map (Option.map (·.bid)) = stack.results
  returned : ∀ freebuf, some freebuf ∈ s.results →
    freebuf.bid < entries ∧ freebuf.iov = freebuf.bid

namespace Mirrors

variable {bufSize entries : ℕ} {s : PoolRun} {stack : Lending ℕ}

/-- An initialised pool mirrors the stack of all its ids. -/
private theorem of_init {registerBuffers : ℤ} {iovecs : ℕ → Iovec} {freebs : ℕ → BufpoolFreebuf}
    {pool : Bufpool} (narrow : entries ≤ 2 ^ 16)
    (made : bufpoolInit registerBuffers iovecs freebs bufSize entries = .ok pool) :
    Mirrors bufSize entries (.of pool) (.of (List.range entries).reverse) where
  list := bufpoolInit_freeList narrow made
  all := by
    simp only [Lending.of, List.append_nil]
    exact List.reverse_perm _
  out := rfl
  results := rfl
  returned := by simp [of]

private theorem lt_of_mem (mirrors : Mirrors bufSize entries s stack) {k : ℕ}
    (member : k ∈ stack.stack ++ stack.lent) : k < entries :=
  List.mem_range.mp (mirrors.all.mem_iff.mp member)

theorem disjoint (mirrors : Mirrors bufSize entries s stack) : stack.stack.Disjoint stack.lent :=
  disjoint_of_perm_range mirrors.all

/-- Each operation is accepted by both sides or by neither, and what it returns agrees. -/
theorem step (mirrors : Mirrors bufSize entries s stack) (op : Op ℕ) :
    Option.Rel (Mirrors bufSize entries) (PoolRun.step? s op) (Lifo.step? stack op) := by
  have moved {next : Lending ℕ} (stepped : Lifo.step? stack op = some next) :
      (next.stack ++ next.lent).Perm (List.range entries) := (step?_perm stepped).trans mirrors.all
  obtain ⟨free, lent, results⟩ := stack
  obtain rfl : s.out = lent := mirrors.out
  obtain rfl : s.results.map (Option.map (·.bid)) = results := mirrors.results
  cases op with
  | pop =>
    cases free with
    | nil =>
      simp only [PoolRun.step?, Lifo.step?, mirrors.list.pop_nil]
      refine .some ⟨mirrors.list, mirrors.all, rfl, by simp, ?_⟩
      intro freebuf member
      exact mirrors.returned freebuf (by simpa using member)
    | cons node rest =>
      obtain ⟨-, pool, popped, -, list⟩ := mirrors.list.pop_cons
      have bound := mirrors.lt_of_mem (List.mem_append_left _ (List.mem_cons_self ..))
      obtain ⟨bid, iov⟩ := mirrors.list.nodes node bound
      simp only [PoolRun.step?, Lifo.step?, popped]
      refine .some ⟨list, moved rfl, by rw [bid], by simp [bid], ?_⟩
      intro freebuf member
      rcases List.mem_append.mp member with old | new
      · exact mirrors.returned freebuf old
      · rw [Option.some.inj (List.mem_singleton.mp new), bid, iov]
        exact ⟨bound, rfl⟩
  | put bid =>
    by_cases out : bid ∈ s.out
    · simp only [PoolRun.step?, Lifo.step?, if_pos out] at moved ⊢
      have fresh : bid ∉ free := fun member => mirrors.disjoint member out
      exact .some ⟨mirrors.list.put fresh, moved rfl, rfl, rfl, mirrors.returned⟩
    · simp only [PoolRun.step?, Lifo.step?, if_neg out]
      exact .none

end Mirrors

/-- What a pool in use shares with a stack of ids. -/
structure ActsAsStack (bufSize entries : ℕ) (s : PoolRun) (stack : Lending ℕ) : Prop where
  /-- The pops returned the ids that the stack returned, position by position. -/
  results : s.results.map (Option.map (·.bid)) = stack.results
  out : s.out = stack.lent
  /-- The next pop returns null exactly when every id is out. -/
  null : bufpoolPop s.pool = none ↔ ∀ k < entries, k ∈ s.out
  /-- A pop that returns null changes nothing. -/
  unchanged : ∀ next, bufpoolPop s.pool = none → PoolRun.step? s .pop = some next →
    next.pool = s.pool ∧ next.out = s.out
  /-- The next pop takes the node whose number is the id it returns. -/
  number : ∀ freebuf rest, bufpoolPop s.pool = some (freebuf, rest) →
    s.pool.freelistHead = some freebuf.bid
  /-- A node returned points to the slice of the allocation that its id names. -/
  slice : ∀ freebuf, some freebuf ∈ s.results → freebuf.bid < entries ∧
    s.pool.iovecs freebuf.iov = Block.bufpool.carve bufSize freebuf.bid
  /-- Buffers that are out share no byte. -/
  apart : ∀ first second, some first ∈ s.results → some second ∈ s.results →
    first.bid ∈ s.out → second.bid ∈ s.out → first.bid ≠ second.bid →
      Disjoint (s.pool.iovecs first.iov).range (s.pool.iovecs second.iov).range

/-- A pool that mirrors a stack acts as that stack. -/
theorem Mirrors.actsAsStack {bufSize entries : ℕ} {s : PoolRun} {stack : Lending ℕ}
    (mirrors : Mirrors bufSize entries s stack) : ActsAsStack bufSize entries s stack := by
  have slice (freebuf : BufpoolFreebuf) (member : some freebuf ∈ s.results) :
      freebuf.bid < entries ∧
        s.pool.iovecs freebuf.iov = Block.bufpool.carve bufSize freebuf.bid := by
    obtain ⟨bound, iov⟩ := mirrors.returned freebuf member
    rw [iov]
    exact ⟨bound, mirrors.list.carved _ bound⟩
  refine ⟨mirrors.results, mirrors.out, ?_, ?_, ?_, slice, ?_⟩
  · rw [bufpoolPop_eq_none_iff, ← mirrors.list.chain.eq_nil_iff, mirrors.out]
    constructor
    · intro empty k inside
      have member := mirrors.all.mem_iff.mpr (List.mem_range.mpr inside)
      rwa [empty] at member
    · intro out
      refine List.eq_nil_iff_forall_not_mem.mpr fun k free => ?_
      exact mirrors.disjoint free (out k (mirrors.lt_of_mem (List.mem_append_left _ free)))
  · intro next null stepped
    simp only [PoolRun.step?, null] at stepped
    cases stepped
    exact ⟨rfl, rfl⟩
  · intro freebuf rest popped
    obtain ⟨node, head, rfl, -⟩ := bufpoolPop_eq_some_iff.mp popped
    obtain ⟨later, listed, -⟩ := (head ▸ mirrors.list.chain).of_some
    have bound := mirrors.lt_of_mem (List.mem_append_left _ (listed ▸ List.mem_cons_self ..))
    rw [head, (mirrors.list.nodes node bound).1]
  · intro first second returned again _ _ distinct
    rw [(slice first returned).2, (slice second again).2]
    exact Block.disjoint_carve distinct

end PoolRun

/-- No product of the pool's sizes wraps in a `size_t`. -/
theorem sizeMul_eq {bufSize entries k : ℕ} (most : entries ≤ 2 ^ 14) (size : bufSize ≤ 2 ^ 30)
    (inside : k ≤ entries) : sizeMul k bufSize = k * bufSize := by
  have product := Nat.mul_le_mul (inside.trans most) size
  rw [sizeMul, Nat.mod_eq_of_lt (by omega)]

/-- From `bufpool_init` on, through any pops and any puts of ids that are out, the pool acts as a
stack that first holds the ids with the highest on top. -/
theorem bufpool_refines_stack {registerBuffers : ℤ} {iovecs : ℕ → Iovec}
    {freebs : ℕ → BufpoolFreebuf} {bufSize entries : ℕ} {pool : Bufpool} (most : entries ≤ 2 ^ 14)
    (size : bufSize ≤ 2 ^ 30)
    (made : bufpoolInit registerBuffers iovecs freebs bufSize entries = .ok pool)
    {ops : List (Op ℕ)} {s : PoolRun} (run : run? PoolRun.step? (.of pool) ops = some s) :
    (bufpoolBytes bufSize entries = entries * bufSize ∧
      ∀ k < entries, sizeMul k bufSize = k * bufSize) ∧
    ∃ stack, run? Lifo.step? (.of (List.range entries).reverse) ops = some stack ∧
      s.ActsAsStack bufSize entries stack := by
  refine ⟨⟨sizeMul_eq most size le_rfl, fun k inside => sizeMul_eq most size inside.le⟩, ?_⟩
  have start := PoolRun.Mirrors.of_init (by omega) made
  obtain ⟨stack, ran, mirrors⟩ := run?_mirrored (fun _ _ op mirrors => mirrors.step op) start run
  exact ⟨stack, ran, mirrors.actsAsStack⟩

/-- Both buffers of a pool are popped, a third pop returns null, and of two buffers put back the last
one is popped first. -/
theorem bufpool_refines_stack_two : ∃ pool s stack,
    run? PoolRun.step? (.of pool) [.pop, .pop, .pop, .put 1, .put 0, .pop] = some s ∧
    s.results.map (Option.map (·.bid)) = [some 1, some 0, none, some 0] ∧
    s.ActsAsStack 1024 2 stack := by
  have ran : ∃ pool s, bufpoolInit 0 (fun _ => ⟨⟨.bufpool, 0⟩, 0⟩) (fun _ => ⟨0, 0, none⟩) 1024 2 =
      .ok pool ∧ run? PoolRun.step? (.of pool) [.pop, .pop, .pop, .put 1, .put 0, .pop] = some s ∧
      s.results.map (Option.map (·.bid)) = [some 1, some 0, none, some 0] :=
    ⟨_, _, rfl, rfl, by decide⟩
  obtain ⟨pool, s, made, run, results⟩ := ran
  obtain ⟨-, stack, -, acts⟩ := bufpool_refines_stack (by omega) (by omega) made run
  exact ⟨pool, s, stack, run, results, acts⟩

end UringServer
