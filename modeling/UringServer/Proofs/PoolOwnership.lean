import UringServer.Proofs.Unfinished

/-! # Ownership of the log buffers

A log buffer is either on the free list or owned by one write that is not finished. Its id travels
from the popped node through the registered index and the tag of the write back to the node that is
put, so the free list and the outstanding writes always partition the pool.
-/

namespace UringServer

open Fallible Replay IndexChain

/-- The log buffer that a fixed write owns. -/
def Sqe.writeId? (sqe : Sqe) : Option ℕ :=
  match sqe.request with
  | .writeFixed _ _ _ _ bid => some bid
  | _ => none

theorem Sqe.writeId?_eq_some_iff {sqe : Sqe} {bid : ℕ} : sqe.writeId? = some bid ↔
    ∃ fd buf nbytes offset, sqe.request = .writeFixed fd buf nbytes offset bid := by
  unfold writeId?
  cases sqe.request <;> simp

/-- The nodes know their ids, the buffers lie side by side, and the free list and the unfinished
writes share them out. -/
structure PoolInvariant (entries : ℕ) (pool : Bufpool) (unfinished : List Sqe) : Prop where
  small : entries ≤ 2 ^ 14
  nodes : ∀ k < entries, (pool.freelistMem k).bid = k ∧ (pool.freelistMem k).iov = k
  carved : ∀ k < entries, pool.iovecs k = ⟨⟨.bufpool, k * loggingBufsize⟩, loggingBufsize⟩
  free : ∃ free, Chain pool.next pool.freelistHead free ∧
    (free ++ unfinished.filterMap Sqe.writeId?).Perm (List.range entries)
  addressed : ∀ sqe ∈ unfinished, ∀ fd buf nbytes offset k,
    sqe.request = .writeFixed fd buf nbytes offset k → buf = (pool.iovecs k).iovBase

namespace PoolInvariant

variable {entries : ℕ} {pool : Bufpool} {unfinished rest : List Sqe} {sqe : Sqe}

/-- A free list and the writes that own the other buffers. -/
private theorem of_freeList {free : List ℕ} (small : entries ≤ 2 ^ 14)
    (list : FreeList loggingBufsize entries pool free)
    (all : (free ++ unfinished.filterMap Sqe.writeId?).Perm (List.range entries))
    (addressed : ∀ sqe ∈ unfinished, ∀ fd buf nbytes offset k,
      sqe.request = .writeFixed fd buf nbytes offset k → buf = (pool.iovecs k).iovBase) :
    PoolInvariant entries pool unfinished :=
  ⟨small, list.nodes, list.carved, ⟨free, list.chain, all⟩, addressed⟩

private theorem freeList (invariant : PoolInvariant entries pool unfinished) :
    ∃ free, FreeList loggingBufsize entries pool free ∧
      (free ++ unfinished.filterMap Sqe.writeId?).Perm (List.range entries) := by
  obtain ⟨free, chain, all⟩ := invariant.free
  exact ⟨free, ⟨invariant.nodes, invariant.carved, chain⟩, all⟩

theorem perm (invariant : PoolInvariant entries pool unfinished) (same : unfinished.Perm rest) :
    PoolInvariant entries pool rest where
  small := invariant.small
  nodes := invariant.nodes
  carved := invariant.carved
  free := by
    obtain ⟨free, chain, all⟩ := invariant.free
    exact ⟨free, chain, ((same.symm.filterMap _).append_left free).trans all⟩
  addressed other member := invariant.addressed other (same.mem_iff.mpr member)

/-- Requests of other kinds own no log buffer. -/
private theorem cons_other_iff (other : sqe.writeId? = none) :
    PoolInvariant entries pool (sqe :: rest) ↔ PoolInvariant entries pool rest := by
  have same : (sqe :: rest).filterMap Sqe.writeId? = rest.filterMap Sqe.writeId? := by simp [other]
  constructor
  · rintro ⟨small, nodes, carved, free, addressed⟩
    exact ⟨small, nodes, carved, same ▸ free,
      fun another member => addressed another (List.mem_cons_of_mem _ member)⟩
  · rintro ⟨small, nodes, carved, free, addressed⟩
    refine ⟨small, nodes, carved, same ▸ free, ?_⟩
    intro another member fd buf nbytes offset k request
    rcases List.mem_cons.mp member with rfl | member
    · rw [Sqe.writeId?, request] at other
      cases other
    · exact addressed another member fd buf nbytes offset k request

/-- An outstanding id is one of the pool. -/
theorem lt_of_outstanding (invariant : PoolInvariant entries pool unfinished) {k : ℕ}
    (outstanding : k ∈ unfinished.filterMap Sqe.writeId?) : k < entries := by
  obtain ⟨free, -, all⟩ := invariant.free
  exact List.mem_range.mp (all.mem_iff.mp (List.mem_append_right _ outstanding))

/-- The node at the head belongs to a buffer that no write owns. -/
theorem head {node : ℕ} (invariant : PoolInvariant entries pool unfinished)
    (head : pool.freelistHead = some node) :
    node < entries ∧ node ∉ unfinished.filterMap Sqe.writeId? := by
  obtain ⟨free, chain, all⟩ := invariant.free
  rw [head] at chain
  obtain ⟨rest, rfl, -⟩ := chain.of_some
  have disjoint := disjoint_of_perm_range all
  refine ⟨List.mem_range.mp (all.mem_iff.mp ?_), disjoint (List.mem_cons_self ..)⟩
  exact List.mem_append_left _ (List.mem_cons_self ..)

/-- Putting back the buffer of a finished write. -/
theorem put (invariant : PoolInvariant entries pool (sqe :: rest)) {k : ℕ}
    (write : sqe.writeId? = some k) : PoolInvariant entries (bufpoolPut pool (k % 2 ^ 16)) rest := by
  have bound := invariant.lt_of_outstanding (by simp [write] : k ∈ (sqe :: rest).filterMap Sqe.writeId?)
  have small := invariant.small
  rw [Nat.mod_eq_of_lt (by omega)]
  obtain ⟨free, list, all⟩ := invariant.freeList
  have owned : (sqe :: rest).filterMap Sqe.writeId? = k :: rest.filterMap Sqe.writeId? := by
    simp [write]
  rw [owned] at all
  have disjoint := disjoint_of_perm_range all
  have fresh : k ∉ free := fun member => disjoint member (List.mem_cons_self ..)
  refine .of_freeList small (list.put fresh) (List.perm_middle.symm.trans all) ?_
  intro another member
  exact invariant.addressed another (List.mem_cons_of_mem _ member)

/-- A call of `log_event` moves one buffer from the free list to the write it queues. -/
theorem logEvent {level : LogLevel} {self next : Appctx} {args : LogArgs} {answers : Answers}
    (invariant : PoolInvariant entries self.bufpool self.uring.unfinished)
    (log : logEvent level self args answers = .ok next) :
    PoolInvariant entries next.bufpool next.uring.unfinished := by
  obtain ⟨node, slot, head, ring, rfl⟩ := logEvent_ok_iff.mp log
  obtain ⟨free, chain, all⟩ := invariant.free
  rw [head] at chain
  obtain ⟨rest, rfl, later⟩ := chain.of_some
  obtain ⟨bid, iov⟩ := invariant.nodes node (invariant.head head).1
  have queued : (slot.store (self.writeSqe level args answers node)).unfinished.Perm
      (self.writeSqe level args answers node :: self.uring.unfinished) :=
    ring ▸ IoUring.store_unfinished slot _
  have id : (self.writeSqe level args answers node).writeId? = some node :=
    Sqe.writeId?_eq_some_iff.mpr ⟨_, _, _, _, by rw [Appctx.writeSqe, bid]⟩
  refine perm ⟨invariant.small, invariant.nodes, invariant.carved, ⟨rest, later, ?_⟩, ?_⟩ queued.symm
  · rw [List.filterMap_cons_some id]
    exact List.perm_middle.trans all
  · intro another member fd buf nbytes offset k request
    rcases List.mem_cons.mp member with rfl | member
    · obtain ⟨-, rfl, -, -, rfl⟩ := Request.writeFixed.inj request
      rw [Appctx.logBuf, iov, bid]
      rfl
    · exact invariant.addressed another member fd buf nbytes offset k request

end PoolInvariant

/-- `bufpool_init` puts every buffer on the free list. -/
theorem bufpoolInit_spec {registerBuffers : ℤ} {iovecs : ℕ → Iovec} {freebs : ℕ → BufpoolFreebuf}
    {entries : ℕ} {pool : Bufpool} (small : entries ≤ 2 ^ 14)
    (made : bufpoolInit registerBuffers iovecs freebs loggingBufsize entries = .ok pool) :
    PoolInvariant entries pool [] := by
  refine .of_freeList small (bufpoolInit_freeList (by omega) made) ?_ (by simp)
  rw [List.filterMap_nil, List.append_nil]
  exact List.reverse_perm _

section Steps

variable {entries : ℕ}

/-- Only a write owns a buffer that its completion gives back. -/
theorem PoolInvariant.finish {self : Appctx} {index : ℕ} {c : Completion}
    (invariant : PoolInvariant entries self.bufpool self.uring.unfinished)
    (found : self.uring.cq[index]? = some c) (other : c.sqe.writeId? = none) :
    PoolInvariant entries (self.finish index).bufpool (self.finish index).uring.unfinished := by
  have split := invariant.perm (finish_unfinished found)
  cases last : c.more with
  | true =>
    simp only [last, if_true, List.nil_append] at split
    exact split
  | false =>
    simp only [last, Bool.false_eq_true, if_false, List.singleton_append] at split
    exact (PoolInvariant.cons_other_iff other).mp split

/-- Before the accept handler logs, the pool is as it was. -/
theorem PoolInvariant.armed {self : Appctx}
    (invariant : PoolInvariant entries self.bufpool self.uring.unfinished) {first : SqeSlot}
    (ring : first.ring = self.uring) (clientfd : ℤ) (answers : Answers) :
    PoolInvariant entries (self.armed clientfd answers first).bufpool
      (self.armed clientfd answers first).uring.unfinished := by
  have queued := (IoUring.store_unfinished first (recvmsgSqe clientfd answers)).symm
  rw [ring] at queued
  refine PoolInvariant.perm ?_ (IoUring.poll_unfinished _ answers.consumed).symm
  exact ((PoolInvariant.cons_other_iff rfl).mpr invariant).perm queued

theorem Handled.poolInvariant {self branch : Appctx} {c : Completion} {answers : Answers} {index : ℕ}
    (step : Handled self c answers branch) (genuine : c.Genuine)
    (found : self.uring.cq[index]? = some c)
    (invariant : PoolInvariant entries self.bufpool self.uring.unfinished) :
    PoolInvariant entries (branch.finish index).bufpool (branch.finish index).uring.unfinished := by
  have again : branch.uring.cq[index]? = some c := step.cq ▸ found
  cases step with
  | @write fd buf nbytes offset bid request =>
    have last : c.more = false := genuine.single (by rw [request]; rfl)
    have split := invariant.perm (finish_unfinished found)
    simp only [last, Bool.false_eq_true, if_false, List.singleton_append] at split
    exact split.put (Sqe.writeId?_eq_some_iff.mpr ⟨_, _, _, _, request⟩)
  | @accept listenfd first next request positive ring log =>
    refine PoolInvariant.finish ?_ again (by rw [Sqe.writeId?, request])
    exact PoolInvariant.logEvent (invariant.armed ring c.cqe.res answers) log
  | @recvmsg fd group buf logged second request filled log ring =>
    refine PoolInvariant.finish ?_ again (by rw [Sqe.writeId?, request])
    have kept := (invariant.logEvent log).perm (IoUring.poll_unfinished _ answers.consumed).symm
    have queued := IoUring.store_unfinished second (sendSqe (userdataDecode c.cqe.userData) answers)
    rw [ring] at queued
    exact ((PoolInvariant.cons_other_iff rfl).mpr kept).perm queued.symm
  | send request => exact invariant.finish again (by rw [Sqe.writeId?, request])

end Steps

theorem Step.poolInvariant {cfg : Config} {s next : State} {event : Event} {entries : ℕ}
    (reachable : Reachable cfg s) (step : Step cfg s event next)
    (invariant : PoolInvariant entries s.app.bufpool s.app.uring.unfinished) :
    PoolInvariant entries next.app.bufpool next.app.uring.unfinished := by
  cases step with
  | stops _ stop => exact invariant
  | @mainAccept answers slot ring =>
    have queued := IoUring.store_unfinished slot (acceptSqe cfg.setup.socketfd answers)
    rw [ring] at queued
    exact ((PoolInvariant.cons_other_iff rfl).mpr invariant).perm queued.symm
  | mainLog log => exact invariant.logEvent log
  | mainSubmit => exact invariant
  | poll => exact invariant.perm (IoUring.poll_unfinished ..).symm
  | complete found posted =>
    obtain ⟨c, rfl, -, -, uring⟩ := posted.genuine
    rw [posted.bufpool, uring]
    exact invariant.perm (IoUring.post_unfinished _ found).symm
  | iterate found handled =>
    exact handled.poolInvariant (reachable.requested.posted _ (mem_posted_of_cq found)).2 found invariant

theorem Reachable.poolInvariant {cfg : Config} {s : State} (reachable : Reachable cfg s) :
    PoolInvariant cfg.bufpoolSize s.app.bufpool s.app.uring.unfinished := by
  refine reachable.invariant ?_ fun s event next here invariant step =>
    step.poolInvariant here invariant
  intro first initial
  have registered := bufpoolInit_returns_iff.mp ⟨_, initial.bufpool⟩
  rw [initial.uring]
  exact bufpoolInit_spec (cfg.pool_registered registered).2 initial.bufpool

end UringServer
