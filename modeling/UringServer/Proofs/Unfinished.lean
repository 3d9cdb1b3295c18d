import UringServer.Proofs.Steps

/-! # Unfinished requests

A request is unfinished from the moment it is queued until its last completion is handled. Queueing
adds one, handling a last completion removes one, and nothing else changes the collection: not the
polling thread, not the kernel's posting, not a completion after which more will follow.
-/

namespace UringServer

namespace IoUring

/-- Requests that are queued, live in the kernel, or answered by a last completion in the queue. -/
def unfinished (ring : IoUring) : List Sqe :=
  ring.armed ++ (ring.cq.filter (!·.more)).map (·.sqe)

theorem store_unfinished (slot : SqeSlot) (sqe : Sqe) :
    (slot.store sqe).unfinished.Perm (sqe :: slot.ring.unfinished) :=
  (store_armed slot sqe).append_right _

theorem poll_unfinished (ring : IoUring) (count : ℕ) :
    (ring.poll count).unfinished.Perm ring.unfinished :=
  (poll_armed ring count).append_right _

/-- Posting a completion leaves its request unfinished, live or in the completion queue. -/
theorem post_unfinished (ring : IoUring) {index : ℕ} {c : Completion}
    (found : ring.live[index]? = some c.sqe) : (ring.post index c).unfinished.Perm ring.unfinished := by
  have armed := @post_armed ring index c c.sqe found
  have posted : (ring.post index c).cq = ring.cq ++ [c] := rfl
  rw [unfinished, unfinished, posted, List.filter_append, List.map_append, ← List.append_assoc]
  cases last : c.more with
  | true =>
    simp only [last, if_true, List.nil_append] at armed
    simp only [List.filter_cons, last, Bool.not_true, Bool.false_eq_true, if_false, List.filter_nil,
      List.map_nil, List.append_nil]
    exact armed.append_right _
  | false =>
    simp only [last, Bool.false_eq_true, if_false, List.singleton_append] at armed
    simp only [List.filter_cons, last, Bool.not_false, if_true, List.filter_nil, List.map_cons,
      List.map_nil]
    refine List.perm_append_comm.trans ?_
    rw [List.singleton_append, ← List.cons_append]
    exact armed.append_right _

/-- Handling a completion finishes its request if no more completions follow. -/
private theorem seen_unfinished (ring : IoUring) {index : ℕ} {c : Completion}
    (found : ring.cq[index]? = some c) :
    ring.unfinished.Perm ((if c.more then [] else [c.sqe]) ++ (ioUringCqeSeen ring index).unfinished) := by
  obtain ⟨before, after, split, erased⟩ := eraseIdx_split found
  have seen : (ioUringCqeSeen ring index).unfinished =
      ring.armed ++ ((before ++ after).filter (!·.more)).map (·.sqe) := by
    rw [← erased]
    rfl
  rw [seen, unfinished, split, List.filter_append, List.filter_append, List.filter_cons]
  cases last : c.more with
  | true => simp
  | false =>
    simp only [Bool.not_false, if_true, List.map_append, List.map_cons, Bool.false_eq_true, if_false,
      List.singleton_append, ← List.append_assoc]
    exact List.perm_middle

end IoUring

/-- The rest of an iteration after the handler, on the requests. -/
theorem finish_unfinished {self : Appctx} {index : ℕ} {c : Completion}
    (found : self.uring.cq[index]? = some c) :
    self.uring.unfinished.Perm
      ((if c.more then [] else [c.sqe]) ++ (self.finish index).uring.unfinished) :=
  self.uring.seen_unfinished found

end UringServer
