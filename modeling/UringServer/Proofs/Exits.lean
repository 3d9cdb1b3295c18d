import UringServer.Proofs.QueueRates

/-! # Why the process ends

Every event makes its checks in a fixed order, and the first one that fails ends the process. What the
checks compare are results of calls, the number of free log buffers and the occupancy of the submission
queue, all of them known before the event. The check on the header of a message is not among them: it
never fails.
-/

namespace UringServer

open Fallible Replay

/-- A check that an event makes: whether it fails, and what ends the process then. -/
structure Check where
  failed : Bool
  stop : Stop
deriving DecidableEq, Repr

/-- The first check that fails ends the process. -/
def firstFailed : List Check → Option Stop
  | [] => none
  | check :: rest => if check.failed then some check.stop else firstFailed rest

@[simp] theorem firstFailed_nil : firstFailed [] = none := rfl

@[simp] theorem firstFailed_cons_eq_some_iff {check : Check} {rest : List Check} {stop : Stop} :
    firstFailed (check :: rest) = some stop ↔ (check.failed = true ∧ stop = check.stop) ∨
      (check.failed = false ∧ firstFailed rest = some stop) := by
  cases failed : check.failed <;> simp [firstFailed, failed, eq_comm]

theorem firstFailed_append (checks rest : List Check) :
    firstFailed (checks ++ rest) = (firstFailed checks).or (firstFailed rest) := by
  induction checks with
  | nil => rfl
  | cons check checks ih =>
    rw [List.cons_append, firstFailed, firstFailed, ih]
    split <;> rfl

namespace Appctx

/-- The occupancy of the submission queue after one more entry and a turn of the polling thread. -/
def occupiedAfter (self : Appctx) (consumed : ℕ) : ℕ :=
  self.uring.unconsumed.length + 1 - self.uring.pollable consumed

/-- The checks of `log_event`, for the occupancy that it finds. -/
def logChecks (self : Appctx) (occupied : ℕ) : List Check :=
  [⟨self.bufpool.freelistHead = none, .assertNotNull .regbuf⟩,
    ⟨occupied = sqEntries, .assertNotNull .sqe⟩]

/-- The checks of the handler of a completion. -/
def handlerChecks (self : Appctx) (c : Completion) (answers : Answers) : List Check :=
  match c.sqe.request with
  | .multishotAccept _ =>
      ⟨c.cqe.res < 0, .assertPositive c.cqe.res⟩ ::
      ⟨self.uring.unconsumed.length = sqEntries, .nullSqe⟩ ::
      ⟨0 < (answers.getpeername c.cqe.res).1, .assertPositive (-(answers.getpeername c.cqe.res).1)⟩ ::
      self.logChecks (self.occupiedAfter answers.consumed)
  | .recvmsgMultishot _ _ =>
      ⟨c.cqe.res < 0, .assertPositive c.cqe.res⟩ ::
      (self.logChecks self.uring.unconsumed.length ++
        [⟨self.occupiedAfter answers.consumed = sqEntries, .nullSqe⟩])
  | .sendZc _ _ => []
  | .writeFixed _ _ _ _ _ => []

end Appctx

/-- The checks that an event makes, in their order. -/
def State.checks (s : State) : Event → List Check
  | .mainAccept _ => [⟨s.app.uring.unconsumed.length = sqEntries, .assertNotNull .sqe⟩]
  | .mainLog _ _ _ => s.app.logChecks s.app.uring.unconsumed.length
  | .mainSubmit answers => [⟨answers.submit < 0, .assertPositive answers.submit⟩]
  | .poll _ => []
  | .complete _ _ => []
  | .iterate index answers =>
      match s.app.uring.cq[index]? with
      | none => []
      | some c => ⟨answers.waitCqe < 0, .assertPositive answers.waitCqe⟩ ::
          (s.app.handlerChecks c answers ++ [⟨answers.submit < 0, .assertPositive answers.submit⟩])

section Checks

variable {self : Appctx} {c : Completion} {answers : Answers} {stop : Stop}

private theorem logEvent_checks {level : LogLevel} {args : LogArgs} :
    logEvent level self args answers = .error stop ↔
      firstFailed (self.logChecks self.uring.unconsumed.length) = some stop := by
  rw [logEvent_error_iff]
  simp [Appctx.logChecks]

private theorem occupiedAfter_eq (slot : SqeSlot) (ring : slot.ring = self.uring) (sqe : Sqe) (consumed : ℕ) :
    ((slot.store sqe).poll consumed).unconsumed.length = self.occupiedAfter consumed := by
  have length := (slot.store sqe).poll_unconsumed_length consumed
  have same : (slot.store sqe).pollable consumed = self.uring.pollable consumed := ring ▸ rfl
  rw [IoUring.store_unconsumed, List.length_append, List.length_singleton, same, ring] at length
  rw [Appctx.occupiedAfter]
  omega

private theorem appctxHandleAccept_checks {fd : ℤ} (request : c.sqe.request = .multishotAccept fd) :
    appctxHandleAccept self c.cqe answers = .error stop ↔
      firstFailed (self.handlerChecks c answers) = some stop := by
  have second (first : SqeSlot) (ring : first.ring = self.uring) :
      logEvent .debug (self.armed c.cqe.res answers first)
        (.newConnection (addrText (answers.getpeername c.cqe.res).2)) answers = .error stop ↔
      firstFailed (self.logChecks (self.occupiedAfter answers.consumed)) = some stop := by
    rw [logEvent_checks, ← occupiedAfter_eq first ring (recvmsgSqe c.cqe.res answers)]
    rfl
  have room := @exists_slot_iff self.uring
  have most := self.uring.unconsumed_length_le
  simp only [appctxHandleAccept_error_iff, Appctx.handlerChecks, request, firstFailed_cons_eq_some_iff,
    decide_eq_true_eq, decide_eq_false_iff_not, not_lt]
  refine or_congr_right ?_
  by_cases full : self.uring.unconsumed.length = sqEntries
  · have none (first : SqeSlot) : first.ring ≠ self.uring := fun ring => by
      have := room.mp ⟨first, ring⟩
      omega
    simp [full, none]
  · obtain ⟨first, ring⟩ := room.mpr (by omega)
    simp only [full, false_and, and_false, not_false_eq_true, true_and, false_or]
    refine and_congr_right fun positive => ?_
    constructor
    · rintro ⟨slot, same, peer | ⟨success, failed⟩⟩
      · exact .inl peer
      · exact .inr ⟨success, (second slot same).mp failed⟩
    · rintro (peer | ⟨success, failed⟩)
      · exact ⟨first, ring, .inl peer⟩
      · exact ⟨first, ring, .inr ⟨success, (second first ring).mpr failed⟩⟩

/-- A message has a header, so what remains are the checks of its result, of `log_event` and of the
entry for the reply. -/
private theorem appctxHandleRecvmsg_checks (genuine : c.Genuine) {fd : ℤ} {group : ℕ}
    (request : c.sqe.request = .recvmsgMultishot fd group) :
    appctxHandleRecvmsg self c.cqe answers = .error stop ↔
      firstFailed (self.handlerChecks c answers) = some stop := by
  have header : c.cqe.res < 0 ∨ (recvmsgOutSize : ℤ) ≤ c.cqe.res := by
    cases filled : c.buf with
    | none => exact .inl (genuine.unfilled filled fd group request)
    | some buf => exact .inr (genuine.filled buf filled).2.1
  have size := recvmsgOutSize_nonneg
  have reply (logged : Appctx)
      (log : logEvent .debug self (self.packetArgs c.cqe) answers = .ok logged) :
      (logged.recycled c.cqe.bid answers).uring.unconsumed.length =
        self.occupiedAfter answers.consumed := by
    obtain ⟨node, slot, ring, same⟩ := logEvent_uring log
    have polled : (logged.recycled c.cqe.bid answers).uring = logged.uring.poll answers.consumed := rfl
    rw [polled, same, occupiedAfter_eq slot ring]
  have none_iff : firstFailed (self.logChecks self.uring.unconsumed.length) = none ↔
      ∃ logged, logEvent .debug self (self.packetArgs c.cqe) answers = .ok logged :=
    none_iff_ok fun _ => logEvent_checks
  simp only [appctxHandleRecvmsg_error_iff, Appctx.handlerChecks, request,
    firstFailed_cons_eq_some_iff, firstFailed_append, Option.or_eq_some_iff, logEvent_checks, none_iff,
    decide_eq_true_eq, decide_eq_false_iff_not, not_lt]
  refine or_congr_right ?_
  constructor
  · rintro (⟨positive, short, -⟩ | ⟨long, failed | ⟨logged, log, full, rfl⟩⟩)
    · omega
    · exact ⟨by omega, .inl failed⟩
    · exact ⟨by omega, .inr ⟨⟨logged, log⟩, by simp [← reply logged log, full]⟩⟩
  · rintro ⟨positive, failed | ⟨⟨logged, log⟩, full⟩⟩
    · exact .inr ⟨by omega, .inl failed⟩
    · refine .inr ⟨by omega, .inr ⟨logged, log, ?_⟩⟩
      rw [reply logged log]
      simpa using full

/-- The loop makes the checks of the handler that the request asks for. -/
private theorem dispatch_checks (genuine : c.Genuine) (tagged : c.sqe.Tagged) :
    dispatch self c.cqe answers = .error stop ↔
      firstFailed (self.handlerChecks c answers) = some stop := by
  rw [dispatch_eq genuine tagged]
  cases request : c.sqe.request with
  | multishotAccept fd => exact appctxHandleAccept_checks request
  | recvmsgMultishot fd group => exact appctxHandleRecvmsg_checks genuine request
  | sendZc fd data => simp [Appctx.handlerChecks, request]
  | writeFixed fd buf nbytes offset bid => simp [Appctx.handlerChecks, request]

end Checks

/-- An event ends the process as the first of its checks that fails says. -/
theorem ends_iff_checks {cfg : Config} {s : State} (requested : Requested s.app.uring s.handled)
    {event : Event} {stop : Stop} :
    s.Ends cfg stop event ↔ firstFailed (s.checks event) = some stop := by
  cases event with
  | mainAccept answers => simp [State.Ends, State.checks, mainAccept_error_iff]
  | mainLog level fmt answers => exact logEvent_checks
  | mainSubmit answers => simp [State.Ends, State.checks, mainSubmit_error_iff]
  | poll count => simp [State.Ends, State.checks]
  | complete index outcome => simp [State.Ends, State.checks]
  | iterate index answers =>
    cases found : s.app.uring.cq[index]? with
    | none => simp [State.Ends, State.checks, found]
    | some c =>
      obtain ⟨origin, genuine⟩ := requested.posted c (mem_posted_of_cq found)
      have handler (stop : Stop) := @dispatch_checks s.app c answers stop genuine
        (requested.tagged _ origin)
      have none_iff := none_iff_ok handler
      simp only [State.Ends, State.checks, found, Option.some.injEq, exists_eq_left',
        runEventLoopIteration_error_iff, firstFailed_cons_eq_some_iff, firstFailed_append,
        Option.or_eq_some_iff, handler, none_iff, firstFailed_nil, decide_eq_true_eq,
        decide_eq_false_iff_not, not_lt, reduceCtorEq, and_false, or_false]
      refine or_congr_right ?_
      rw [← and_or_left]
      refine and_congr_right fun _ => or_congr_right ?_
      constructor
      · rintro ⟨negative, reason, branch⟩
        exact ⟨branch, negative, reason⟩
      · rintro ⟨branch, negative, reason⟩
        exact ⟨negative, reason, branch⟩

private theorem exists_of_firstFailed {checks : List Check} {stop : Stop}
    (failed : firstFailed checks = some stop) : ∃ check ∈ checks, check.stop = stop := by
  induction checks with
  | nil => cases failed
  | cons check rest ih =>
    rcases firstFailed_cons_eq_some_iff.mp failed with ⟨-, same⟩ | ⟨-, later⟩
    · exact ⟨check, List.mem_cons_self .., same.symm⟩
    · obtain ⟨other, member, same⟩ := ih later
      exact ⟨other, List.mem_cons_of_mem _ member, same⟩

/-- No event checks the header of a message. -/
private theorem State.check_ne_out (s : State) (event : Event) :
    ∀ check ∈ s.checks event, check.stop ≠ .assertNotNull .out := by
  cases event with
  | iterate index answers =>
    cases found : s.app.uring.cq[index]? with
    | none => simp [checks, found]
    | some c =>
      cases request : c.sqe.request <;>
        simp [checks, found, Appctx.handlerChecks, Appctx.logChecks, request]
  | _ => simp [checks, Appctx.logChecks]

/-- From every reachable state a step ends the process exactly if one of its checks fails, for the
reason of the first; the header of a message is never the reason. -/
theorem stops_at_first_failed {cfg : Config} {s next : State} {event : Event}
    (reachable : Reachable cfg s) (stepped : step? cfg s event = some next) :
    next.stop = firstFailed (s.checks event) ∧ next.stop ≠ some (.assertNotNull .out) := by
  have same : next.stop = firstFailed (s.checks event) := by
    refine Option.ext fun stop => ?_
    exact (stop_iff_ends stepped).trans (ends_iff_checks reachable.requested)
  refine ⟨same, fun out => ?_⟩
  obtain ⟨check, member, reason⟩ := exists_of_firstFailed (same.symm.trans out)
  exact s.check_ne_out event check member reason

/-- The seventh connection while the polling thread lags behind. -/
theorem stops_at_first_failed_seventh : ∃ s next, Reachable calmConfig s ∧
    step? calmConfig s (.iterate 0 calm) = some next ∧ next.stop = some .nullSqe ∧
    next.stop = firstFailed (s.checks (.iterate 0 calm)) ∧
    next.stop ≠ some (.assertNotNull .out) := by
  let events := mainEvents (fun _ => calm) ++ lagging 6 ++ [.complete 0 (.accepted 11 true)]
  have passed : (replay? calmConfig events).any (fun s =>
      (step? calmConfig s (.iterate 0 calm)).any fun next => next.stop = some .nullSqe) = true := by
    decide +kernel
  obtain ⟨first, s, start, run, holds⟩ := exists_of_replay? passed
  obtain ⟨next, stepped, stopped⟩ := (Option.any_eq_true ..).mp holds
  have reachable : Reachable calmConfig s := ⟨first, events, start, run⟩
  exact ⟨s, next, reachable, stepped, of_decide_eq_true stopped, stops_at_first_failed reachable stepped⟩

end UringServer
