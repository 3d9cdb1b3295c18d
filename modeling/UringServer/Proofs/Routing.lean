import UringServer.Proofs.Steps

/-! # Routing of completions

The tag of a request keeps its operation and 16 bits of its descriptor. Completions therefore reach
the branch of their operation in every run, and they reach the connection they belong to as long as
descriptors fit in those 16 bits. The replies queued so far are the handled messages in order, each
addressed to the descriptor that was decoded.
-/

namespace UringServer

open Fallible Replay

/-- The descriptor a reply is sent to. -/
def Sqe.sendFd? (sqe : Sqe) : Option ℤ :=
  match sqe.request with
  | .sendZc fd _ => some fd
  | _ => none

/-- The connection on which a message was received. -/
def Completion.receivedOn? (c : Completion) : Option ℤ :=
  match c.sqe.request with
  | .recvmsgMultishot fd _ => some fd
  | _ => none

/-- The branch of `run_event_loop` for the request that was submitted, on the very buffer id that was
submitted. -/
def Completion.branch (c : Completion) (self : Appctx) (answers : Answers) : Except Stop Appctx :=
  match c.sqe.request with
  | .multishotAccept _ => appctxHandleAccept self c.cqe answers
  | .recvmsgMultishot _ _ => appctxHandleRecvmsg self c.cqe answers
  | .sendZc _ _ => .ok self
  | .writeFixed _ _ _ _ bid => .ok { self with bufpool := bufpoolPut self.bufpool bid }

/-- Every handled completion is dispatched to the branch of the request that was submitted, with its
descriptor or buffer id, and the replies queued are those to the messages handled, in order. -/
structure Routed (s : State) : Prop where
  /-- `run_event_loop` runs that branch, in whatever context. -/
  branch : ∀ c ∈ s.handled, ∀ self answers, dispatch self c.cqe answers = c.branch self answers
  /-- A message is answered on the descriptor it was received on, whatever else is queued. -/
  answer : ∀ c ∈ s.handled, ∀ fd, c.receivedOn? = some fd → ∀ self answers next,
    dispatch self c.cqe answers = .ok next → next.uring.sqes.getLast?.bind Sqe.sendFd? = some fd
  ident : ∀ c ∈ s.handled, ((userdataDecode c.cqe.userData).fd.toNat : ℤ) = c.sqe.request.ident
  replies : s.app.uring.sqes.filterMap Sqe.sendFd? = s.handled.filterMap Completion.receivedOn?

section Queued

variable {self branch : Appctx} {c : Completion} {answers : Answers}

theorem dispatch_eq_branch (genuine : c.Genuine) (tagged : c.sqe.Tagged)
    (narrow : c.sqe.request.ident < 2 ^ 16) : dispatch self c.cqe answers = c.branch self answers := by
  rw [dispatch_eq genuine tagged, Completion.branch]
  cases request : c.sqe.request with
  | multishotAccept _ => rfl
  | recvmsgMultishot _ _ => rfl
  | sendZc _ _ => rfl
  | writeFixed fd buf nbytes offset bid =>
    rw [request, Request.ident] at narrow
    dsimp only
    rw [Nat.mod_eq_of_lt (by omega)]

/-- The reply that handling a completion queues. -/
def Completion.reply? (c : Completion) : Option ℤ := c.receivedOn?.map (· % 2 ^ 16)

/-- A decoded descriptor is not negative as an `int`. -/
theorem decoded_fd_toInt (genuine : c.Genuine) (tagged : c.sqe.Tagged) :
    (userdataDecode c.cqe.userData).fd.toInt = c.sqe.request.ident % 2 ^ 16 := by
  have fd := decoded_fd genuine tagged
  rw [BitVec.toInt_eq_toNat_cond, if_pos (by omega), fd]

/-- The recvmsg handler ends with the reply to the decoded descriptor. -/
private theorem appctxHandleRecvmsg_last {cqe : Cqe}
    (returned : appctxHandleRecvmsg self cqe answers = .ok branch) :
    branch.uring.sqes.getLast? = some (sendSqe (userdataDecode cqe.userData) answers) := by
  obtain ⟨-, logged, -, second, -, rfl⟩ := appctxHandleRecvmsg_ok_iff.mp returned
  exact List.getLast?_concat

/-- What a handler queues: a reply exactly for a message. -/
private theorem queuedFor_replies (genuine : c.Genuine) (tagged : c.sqe.Tagged) (node : ℕ) :
    (self.queuedFor c answers node).filterMap Sqe.sendFd? = c.reply?.toList := by
  have sent := decoded_fd_toInt genuine tagged
  have reply : (sendSqe (userdataDecode c.cqe.userData) answers).sendFd? =
    some (userdataDecode c.cqe.userData).fd.toInt := rfl
  unfold Appctx.queuedFor Completion.reply? Completion.receivedOn?
  generalize c.sqe.request = request at sent ⊢
  cases request with
  | multishotAccept fd => rfl
  | recvmsgMultishot fd group =>
    rw [List.filterMap_cons_none rfl, List.filterMap_cons_some reply, sent]
    rfl
  | sendZc fd data => rfl
  | writeFixed fd buf nbytes offset bid => rfl

/-- Handlers queue requests on nonnegative descriptors. -/
private theorem Handled.nonneg (step : Handled self c answers branch) (genuine : c.Genuine)
    (tagged : c.sqe.Tagged) (node : ℕ) :
    ∀ sqe ∈ self.queuedFor c answers node, 0 ≤ sqe.request.ident := by
  have sent := decoded_fd_toInt genuine tagged
  intro sqe member
  cases step with
  | write request => simp [Appctx.queuedFor, request] at member
  | accept request positive ring log =>
    rw [Appctx.queuedFor, request] at member
    rcases List.mem_pair.mp member with rfl | rfl
    · exact positive
    · exact Int.natCast_nonneg _
  | recvmsg request filled log ring =>
    rw [Appctx.queuedFor, request] at member
    rcases List.mem_pair.mp member with rfl | rfl
    · exact Int.natCast_nonneg _
    · rw [sendSqe, Request.ident, sent]
      exact Int.emod_nonneg _ (by decide)
  | send request => simp [Appctx.queuedFor, request] at member

end Queued

/-- What holds of every run: descriptors are not negative, and replies go to the descriptor of
their message cut to 16 bits. -/
structure RoutedModulo (s : State) : Prop where
  nonneg : ∀ sqe ∈ s.app.uring.sqes, 0 ≤ sqe.request.ident
  replies : s.app.uring.sqes.filterMap Sqe.sendFd? = s.handled.filterMap Completion.reply?

theorem RoutedModulo.add {s next : State} (routed : RoutedModulo s) (added : List Sqe)
    (sqes : next.app.uring.sqes = s.app.uring.sqes ++ added)
    (nonneg : ∀ sqe ∈ added, 0 ≤ sqe.request.ident)
    (replies : s.handled.filterMap Completion.reply? ++ added.filterMap Sqe.sendFd? =
      next.handled.filterMap Completion.reply?) : RoutedModulo next := by
  refine ⟨?_, ?_⟩
  · intro sqe member
    rw [sqes] at member
    exact (List.mem_append.mp member).elim (routed.nonneg sqe) (nonneg sqe)
  · rw [sqes, List.filterMap_append, routed.replies, replies]

theorem Step.routedModulo {cfg : Config} {s next : State} {event : Event} (step : Step cfg s event next)
    (listening : 0 ≤ cfg.setup.socketfd) (requested : Requested s.app.uring s.handled)
    (routed : RoutedModulo s) : RoutedModulo next := by
  cases step with
  | stops _ stop => exact ⟨routed.nonneg, routed.replies⟩
  | @mainAccept answers slot ring =>
    refine routed.add [acceptSqe cfg.setup.socketfd answers] ?_ ?_ ?_
    · rw [← ring]
      rfl
    · intro sqe member
      obtain rfl := List.mem_singleton.mp member
      exact listening
    · exact List.append_nil _
  | mainLog log =>
    obtain ⟨node, sqes⟩ := logEvent_sqes log
    refine routed.add _ sqes ?_ (List.append_nil _)
    intro sqe member
    obtain rfl := List.mem_singleton.mp member
    exact Int.natCast_nonneg _
  | mainSubmit => exact ⟨routed.nonneg, routed.replies⟩
  | poll => exact ⟨routed.nonneg, routed.replies⟩
  | complete found posted =>
    obtain ⟨c, rfl, -, handled, uring⟩ := posted.genuine
    refine ⟨?_, ?_⟩
    · rw [uring]
      exact routed.nonneg
    · rw [uring, handled]
      exact routed.replies
  | @iterate index answers c branch found handled =>
    obtain ⟨origin, genuine⟩ := requested.posted c (mem_posted_of_cq found)
    have tagged := requested.tagged _ origin
    obtain ⟨node, sqes⟩ := handled.queued
    refine routed.add _ sqes (handled.nonneg genuine tagged node) ?_
    rw [queuedFor_replies genuine tagged, List.filterMap_append]
    cases reply : c.reply? <;> simp [reply]

theorem Reachable.socketfd {cfg : Config} {s : State} (reachable : Reachable cfg s) :
    0 ≤ cfg.setup.socketfd := by
  obtain ⟨first, -, start, -⟩ := reachable
  exact (initial_spec start).socketfd

theorem Reachable.routedModulo {cfg : Config} {s : State} (reachable : Reachable cfg s) :
    RoutedModulo s := by
  refine reachable.invariant ?_ fun s event next here routed step =>
    step.routedModulo here.socketfd here.requested routed
  intro first initial
  refine ⟨?_, ?_⟩
  · simp [initial.uring, ioUringQueueInit]
  · simp [initial.uring, initial.handled, ioUringQueueInit]

/-- A run routes its completions if and only if every completion it handles answers a request on a
descriptor (or buffer) below `2 ^ 16`. -/
theorem routed_iff_narrow {cfg : Config} {s : State} (reachable : Reachable cfg s) :
    Routed s ↔ ∀ c ∈ s.handled, c.sqe.request.ident < 2 ^ 16 := by
  have requested := reachable.requested
  have modulo := reachable.routedModulo
  have posted (c : Completion) (member : c ∈ s.handled) : c.Genuine ∧ c.sqe.Tagged ∧
      0 ≤ c.sqe.request.ident := by
    obtain ⟨origin, genuine⟩ := requested.posted c (List.mem_append_right _ member)
    exact ⟨genuine, requested.tagged _ origin, modulo.nonneg _ origin⟩
  constructor
  · intro routed c member
    obtain ⟨genuine, tagged, -⟩ := posted c member
    rw [← routed.ident c member, decoded_fd genuine tagged]
    exact Int.emod_lt_of_pos _ (by decide)
  · intro narrow
    refine ⟨?_, ?_, ?_, ?_⟩
    · intro c member self answers
      obtain ⟨genuine, tagged, -⟩ := posted c member
      exact dispatch_eq_branch genuine tagged (narrow c member)
    · intro c member fd received self answers next dispatched
      obtain ⟨genuine, tagged, nonneg⟩ := posted c member
      have small := narrow c member
      have sent := decoded_fd_toInt genuine tagged
      rw [dispatch_eq_branch genuine tagged small, Completion.branch] at dispatched
      rw [Completion.receivedOn?] at received
      cases request : c.sqe.request with
      | recvmsgMultishot on group =>
        rw [request] at received dispatched nonneg small sent
        obtain rfl : on = fd := Option.some.inj received
        rw [appctxHandleRecvmsg_last dispatched]
        exact congrArg some (sent.trans (Int.emod_eq_of_lt nonneg small))
      | _ => simp [request] at received
    · intro c member
      obtain ⟨genuine, tagged, nonneg⟩ := posted c member
      rw [decoded_fd genuine tagged]
      exact Int.emod_eq_of_lt nonneg (narrow c member)
    · rw [modulo.replies]
      apply List.filterMap_congr
      intro c member
      obtain ⟨-, -, nonneg⟩ := posted c member
      have small := narrow c member
      simp only [Completion.reply?, Completion.receivedOn?]
      generalize c.sqe.request = request at nonneg small
      cases request with
      | recvmsgMultishot fd group =>
        simp only [Option.map_some, Option.some.injEq]
        exact Int.emod_eq_of_lt nonneg small
      | _ => rfl

/-- Two connections, and a message on the one whose receive is live at `index`: 5 for the first, 7
for the second. -/
def twoConnections (firstFd secondFd : ℤ) (index : ℕ) : List Event :=
  calmStart ++ [.complete 0 (.accepted firstFd true), .iterate 0 calm, .poll 2,
    .complete 0 (.accepted secondFd true), .iterate 0 calm, .poll 2,
    .complete index (.received ['x'] true), .iterate 0 calm]

theorem routed_iff_narrow_two_connections : ∃ s, Reachable calmConfig s ∧
    s.handled.filterMap Completion.receivedOn? = [6] ∧
    (Routed s ↔ ∀ c ∈ s.handled, c.sqe.request.ident < 2 ^ 16) := by
  have passed : (replay? calmConfig (twoConnections 5 6 7)).any
      (fun s => s.handled.filterMap Completion.receivedOn? = [6]) = true := by decide +kernel
  obtain ⟨first, s, start, run, holds⟩ := exists_of_replay? passed
  have reachable : Reachable calmConfig s := ⟨first, _, start, run⟩
  exact ⟨s, reachable, of_decide_eq_true holds, routed_iff_narrow reachable⟩

/-- Descriptor 65541 is 5 modulo `2 ^ 16`: the message of one client is answered to the other. -/
theorem not_routed_wide_descriptor : ∃ s, Reachable calmConfig s ∧
    s.handled.filterMap Completion.receivedOn? = [65541] ∧
    s.app.uring.sqes.filterMap Sqe.sendFd? = [5] ∧ ¬ Routed s := by
  have passed : (replay? calmConfig (twoConnections 5 65541 7)).any
      (fun s => s.handled.filterMap Completion.receivedOn? = [65541] ∧
        s.app.uring.sqes.filterMap Sqe.sendFd? = [5]) = true := by decide +kernel
  obtain ⟨first, s, start, run, holds⟩ := exists_of_replay? passed
  obtain ⟨received, sent⟩ := of_decide_eq_true holds
  refine ⟨s, ⟨first, _, start, run⟩, received, sent, ?_⟩
  intro routed
  have same := routed.replies
  rw [received, sent] at same
  exact absurd same (by decide)

end UringServer
