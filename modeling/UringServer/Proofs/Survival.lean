import UringServer.Proofs.Lifecycle
import UringServer.Proofs.QueueRoom
import UringServer.Proofs.Attribution
import UringServer.Proofs.SharedRing

/-! # What one connection does to the others

An iteration that handles an accept or a message adds requests of its own and takes one completion
out of the queue. The requests of other connections stay armed and their completions wait as before; the
buffers in these change hands only if giving the handled buffer back publishes or overwrites them. An
error in place of a descriptor or a message ends the process at the first check of the handler.
-/

namespace UringServer

open Fallible Replay

/-- Everything but the result of the completion is in order: waiting and submitting succeed,
`getpeername` returns 0 or -1 for a new connection, and there are a log buffer and two entries. -/
structure Provided (s : State) (c : Completion) (answers : Answers) : Prop where
  waited : 0 ≤ answers.waitCqe
  submitted : 0 ≤ answers.submit
  peer : ∀ fd, c.acceptedFd? = some fd → (answers.getpeername fd).1 ≤ 0
  logBuffer : s.app.bufpool.freelistHead ≠ none
  entries : s.TwoFree answers.consumed

section Handlers

variable {s : State} {c : Completion} {answers : Answers}

theorem Provided.logEvent (provided : Provided s c answers) (self : Appctx) {level : LogLevel}
    {args : LogArgs} (pool : self.bufpool = s.app.bufpool)
    (room : self.uring.unconsumed.length ≠ sqEntries) (stop : Stop) :
    logEvent level self args answers ≠ .error stop := by
  intro failed
  rcases logEvent_error_iff.mp failed with ⟨empty, -⟩ | ⟨-, full, -⟩
  · rw [pool] at empty
    exact provided.logBuffer empty
  · exact room full

/-- The second entry is free when the handler asks for it. -/
theorem Provided.second (provided : Provided s c answers) (slot : SqeSlot) (ring : slot.ring = s.app.uring)
    (sqe : Sqe) : ((slot.store sqe).poll answers.consumed).unconsumed.length ≠ sqEntries := by
  rw [ne_eq, store_poll_full_iff, not_not, ring]
  exact provided.entries.2

theorem Provided.accept (provided : Provided s c answers) (accepted : c.acceptedFd? = some c.cqe.res)
    (positive : 0 ≤ c.cqe.res) (stop : Stop) :
    appctxHandleAccept s.app c.cqe answers ≠ .error stop := by
  intro failed
  have room := provided.entries.1
  rcases appctxHandleAccept_error_iff.mp failed with
    ⟨negative, -⟩ | ⟨-, full, -⟩ | ⟨-, first, ring, ⟨lost, -⟩ | ⟨-, failed⟩⟩
  · omega
  · omega
  · have peer := provided.peer _ accepted
    omega
  · exact provided.logEvent (s.app.armed c.cqe.res answers first) rfl
      (provided.second first ring _) stop failed

theorem Provided.recvmsg (provided : Provided s c answers) (long : (recvmsgOutSize : ℤ) ≤ c.cqe.res)
    (stop : Stop) : appctxHandleRecvmsg s.app c.cqe answers ≠ .error stop := by
  intro failed
  have room := provided.entries.1
  have size := recvmsgOutSize_nonneg
  rcases appctxHandleRecvmsg_error_iff.mp failed with
    ⟨negative, -⟩ | ⟨-, short, -⟩ | ⟨-, failed | ⟨logged, log, full, -⟩⟩
  · omega
  · omega
  · exact provided.logEvent s.app rfl (by omega) stop failed
  · obtain ⟨node, slot, ring, same⟩ := logEvent_uring log
    have room := provided.second slot ring
      (s.app.writeSqe .debug (s.app.packetArgs c.cqe) answers node)
    rw [← same] at room
    exact room full

/-- With everything else provided, a completion that carries a descriptor or a message is handled. -/
theorem Provided.dispatch (provided : Provided s c answers) (genuine : c.Genuine)
    (tagged : c.sqe.Tagged) (positive : 0 ≤ c.cqe.res) (stop : Stop) :
    dispatch s.app c.cqe answers ≠ .error stop := by
  rw [dispatch_eq genuine tagged]
  cases request : c.sqe.request with
  | multishotAccept fd =>
    exact provided.accept (by rw [Completion.acceptedFd?, request]) positive stop
  | recvmsgMultishot fd group =>
    refine provided.recvmsg ?_ stop
    cases filled : c.buf with
    | none =>
      have negative := genuine.unfilled filled fd group request
      omega
    | some buf => exact (genuine.filled buf filled).2.1
  | sendZc fd data => simp
  | writeFixed fd buf nbytes offset bid => simp

end Handlers

/-- Handling a completion arms what its handler queues, besides all that was armed. -/
theorem Handled.armed {s : State} {branch : Appctx} {c : Completion} {answers : Answers}
    (step : Handled s.app c answers branch) (accounted : s.Accounted) :
    ∃ node, branch.uring.armed.Perm (s.app.uring.armed ++ s.app.queuedFor c answers node) := by
  obtain ⟨node, sqes⟩ := step.queued
  refine ⟨node, (List.perm_append_right_iff s.ended).mp ?_⟩
  refine (step.accounted accounted).trans ?_
  rw [sqes, List.append_assoc]
  refine (accounted.symm.append_right _).trans ?_
  rw [List.append_assoc]
  exact List.perm_append_comm.append_left _

theorem Handled.armedFor {s : State} {branch : Appctx} {index : ℕ} {c : Completion} {answers : Answers}
    (step : Handled s.app c answers branch) (accounted : s.Accounted) {request : Request}
    (multishot : request.isMultishot = true) :
    ({ s with app := branch.finish index, handled := s.handled ++ [c] } : State).armedFor request =
      s.armedFor request + (c.connected?.toList.map receiveOn).count request := by
  obtain ⟨node, armed⟩ := step.armed accounted
  have count := (armed.map (·.request)).count_eq request
  rw [List.map_append, List.count_append] at count
  rw [← step.subscriptions node, List.count_filter multishot]
  exact count

end UringServer
