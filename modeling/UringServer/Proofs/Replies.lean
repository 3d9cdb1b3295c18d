import UringServer.Proofs.Progress
import UringServer.Proofs.RingCoherence
import UringServer.Proofs.Routing

/-! # Every message gets its reply

On a fair run a message that was received moves to the front of the completions. The iteration that
handles it does everything the server does about a message: it queues the line and the reply and gives
the buffer back. The reply gets to the kernel, and the write of the line completes, whether or not it
stored anything, and is forgotten.
-/

namespace UringServer

open Fallible Replay Execution

/-- The message `c` of the connection `fd` is handled: its buffer goes back to the ring, and the
reply is queued right behind the line about it, with the buffer at the head of the pool. -/
structure Answered (s next : State) (c : Completion) (fd : ℤ) (line reply : Sqe) : Prop where
  handled : next.handled = s.handled ++ [c]
  recycled : ∃ buf, c.buf = some buf ∧ next.conn = s.conn.recycle buf.bid
  queued : next.app.uring.sqes = s.app.uring.sqes ++ [line, reply]
  logged : ∃ answers node, s.app.bufpool.freelistHead = some node ∧
    line = s.app.writeSqe .debug (s.app.packetArgs c.cqe) answers node
  addressed : reply.request = .sendZc (fd % 2 ^ 16) message

section Message

variable {s : State} {branch : Appctx} {index : ℕ} {c : Completion} {answers : Answers} {fd : ℤ}
  {group : ℕ}

theorem Handled.answered (step : Handled s.app c answers branch) (genuine : c.Genuine)
    (tagged : c.sqe.Tagged) (received : c.sqe.request = .recvmsgMultishot fd group) :
    ∃ line reply, Answered s { s with app := branch.finish index, handled := s.handled ++ [c] }
      c fd line reply := by
  have ring := step.conn genuine
  cases step with
  | @recvmsg fd' group' buf logged second request filled log behind =>
    rw [filled] at ring
    obtain ⟨node, slot, head, free, rfl⟩ := logEvent_ok_iff.mp log
    refine ⟨_, sendSqe (userdataDecode c.cqe.userData) answers, rfl, ⟨_, filled, ring⟩, ?_,
      ⟨answers, node, head, rfl⟩, ?_⟩
    · have queued : second.ring.sqes = slot.ring.sqes ++
          [s.app.writeSqe .debug (s.app.packetArgs c.cqe) answers node] := by
        rw [behind]
        rfl
      change second.ring.sqes ++ [_] = _
      rw [queued, free, List.append_assoc]
      rfl
    · rw [sendSqe, decoded_fd_toInt genuine tagged, received]
      rfl
  | write other => cases received.symm.trans other
  | accept other => cases received.symm.trans other
  | send other => cases received.symm.trans other

/-- The polling thread does not see what a handler queues before the loop submits it. -/
theorem Handled.khead_le (step : Handled s.app c answers branch) :
    branch.uring.khead ≤ s.app.uring.ktail := by
  have seen := @Handled.preserves _ _ _ _ (fun ring => ring.ktail = s.app.uring.ktail) step
    (fun _ _ same => same) (fun _ _ same => same) rfl
  exact seen ▸ branch.uring.khead_le

end Message

/-- A pending request stays pending, unless the loop handles a completion of it. -/
theorem Step.pending {cfg : Config} {s next : State} {event : Event} (step : Step cfg s event next)
    {sqe : Sqe} (pending : sqe ∈ s.pending) : sqe ∈ next.pending ∨
      ∃ index answers w branch, s.app.uring.cq[index]? = some w ∧ w.sqe = sqe ∧
        Handled s.app w answers branch ∧
        next = { s with app := branch.finish index, handled := s.handled ++ [w] } := by
  cases step with
  | stops _ stop => exact .inl pending
  | @mainAccept answers slot ring =>
    rw [State.pending, ← ring] at pending
    have armed := (IoUring.store_armed slot (acceptSqe cfg.setup.socketfd answers)).append_right
      (slot.ring.cq.map (·.sqe))
    exact .inl (armed.mem_iff.mpr (List.mem_cons_of_mem _ pending))
  | @mainLog level fmt answers next log =>
    obtain ⟨node, slot, ring, same⟩ := logEvent_uring log
    rw [State.pending, ← ring] at pending
    have armed := (IoUring.store_armed slot (s.app.writeSqe level (.text fmt) answers node)).append_right
      (slot.ring.cq.map (·.sqe))
    rw [← same] at armed
    left
    rw [State.pending, logEvent_cq log, ← ring]
    exact armed.mem_iff.mpr (List.mem_cons_of_mem _ pending)
  | mainSubmit => exact .inl pending
  | @poll count =>
    have armed := (IoUring.poll_armed s.app.uring count).append_right (s.app.uring.cq.map (·.sqe))
    exact .inl (armed.mem_iff.mpr pending)
  | complete found posted =>
    obtain ⟨c, rfl, -, -, uring⟩ := posted.genuine
    have armed := @IoUring.post_armed s.app.uring _ c c.sqe found
    left
    rw [State.pending, uring]
    rcases List.mem_append.mp pending with here | waiting
    · rcases List.mem_append.mp (armed.mem_iff.mpr here) with ended | stays
      · have same : sqe = c.sqe := by
          split at ended
          · cases ended
          · exact List.mem_singleton.mp ended
        refine List.mem_append_right _ (List.mem_map.mpr ⟨c, ?_, same.symm⟩)
        exact List.mem_append_right _ (List.mem_singleton_self c)
      · exact List.mem_append_left _ stays
    · obtain ⟨w, member, same⟩ := List.mem_map.mp waiting
      exact List.mem_append_right _ (List.mem_map.mpr ⟨w, List.mem_append_left _ member, same⟩)
  | @iterate index answers c branch found handled =>
    have cq : (branch.finish index).uring.cq = s.app.uring.cq.eraseIdx index := by
      rw [← handled.cq]
      rfl
    rcases List.mem_append.mp pending with here | waiting
    · have kept : sqe ∈ branch.uring.armed := handled.preserves
        (fun slot other armed => (IoUring.store_armed slot other).mem_iff.mpr (List.mem_cons_of_mem _ armed))
        (fun ring count armed => (IoUring.poll_armed ring count).mem_iff.mpr armed) here
      exact .inl (List.mem_append_left _ kept)
    · obtain ⟨w, member, same⟩ := List.mem_map.mp waiting
      obtain ⟨before, after, split, erased⟩ := eraseIdx_split found
      rw [split, List.mem_append, List.mem_cons] at member
      rcases member with first | rfl | last
      · refine .inl (List.mem_append_right _ (List.mem_map.mpr ⟨w, ?_, same⟩))
        rw [cq, erased]
        exact List.mem_append_left _ first
      · exact .inr ⟨index, answers, w, branch, found, same, handled, rfl⟩
      · refine .inl (List.mem_append_right _ (List.mem_map.mpr ⟨w, ?_, same⟩))
        rw [cq, erased]
        exact List.mem_append_right _ last

end UringServer
