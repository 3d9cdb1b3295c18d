import UringServer.Lib.Backlog
import UringServer.Proofs.LogBalance
import UringServer.Proofs.QueueRoom

/-! # Three rates and one queue

The submission queue fills at the rate at which completions are handled, two entries for each accept or
message, and empties at the rate at which the polling thread takes its turns; in between an entry has to
be submitted, once in an iteration. The calls that a run makes on its queue are read off its events and
completions, and whether an entry is always free is decided by these calls.
-/

namespace UringServer

open Fallible Replay Backlog

/-- The calls on the queue when a completion is handled, as far as the handler gets. -/
def Completion.queueCalls (c : Completion) (answers : Answers) : List Call :=
  match c.sqe.request with
  | .multishotAccept _ =>
      if c.cqe.res < 0 then []
      else .request :: if (answers.getpeername c.cqe.res).1 ≤ 0 then
        [.turn answers.consumed, .request, .submit] else []
  | .recvmsgMultishot _ _ =>
      if c.cqe.res < recvmsgOutSize then []
      else [.request, .turn answers.consumed, .request, .submit]
  | _ => [.submit]

/-- The calls on the queue when an event is taken. -/
def State.queueCalls (s : State) : Event → List Call
  | .mainAccept _ => [.request]
  | .mainLog _ _ _ => [.request]
  | .mainSubmit _ => [.submit]
  | .poll count => [.turn count]
  | .complete _ _ => []
  | .iterate index answers =>
      if answers.waitCqe < 0 then []
      else (s.app.uring.cq[index]?).elim [] fun c => c.queueCalls answers

/-- The positions of a queue: what was requested, submitted and consumed. -/
def IoUring.tally (ring : IoUring) : Tally := ⟨ring.sqes.length, ring.ktail, ring.khead⟩

section Tally

variable {cfg : Config} {s next : State} {event : Event}

private theorem IoUring.free_iff (ring : IoUring) :
    ring.tally.Free sqEntries ↔ ring.unconsumed.length < sqEntries := by
  have := ring.khead_le
  have := ring.ktail_le
  simp only [unconsumed, List.length_drop, Tally.Free, tally]
  omega

private theorem SqeSlot.store_tally (slot : SqeSlot) (sqe : Sqe) :
    (slot.store sqe).tally = slot.ring.tally.after .request := by
  rw [IoUring.tally, store, List.length_append]
  rfl

/-- A second entry is free if the turn in between makes room for it. -/
private theorem State.twoFree_iff (s : State) (consumed : ℕ) : s.TwoFree consumed ↔
    s.app.uring.tally.Free sqEntries ∧
      ((s.app.uring.tally.after .request).after (.turn consumed)).Free sqEntries := by
  rw [TwoFree, IoUring.free_iff]
  refine and_congr_right fun _ => ?_
  have := s.app.uring.khead_le
  have := s.app.uring.ktail_le
  simp only [IoUring.unconsumed, List.length_drop, IoUring.pollable, IoUring.tally, Tally.after, Tally.Free]
  omega

/-- The room a step needs is that its requests are served. -/
theorem State.queueRoom_iff (s : State) (event : Event) :
    s.QueueRoom event ↔ Served sqEntries s.app.uring.tally (s.queueCalls event) := by
  have one : Served sqEntries s.app.uring.tally [.request] ↔ s.app.uring.unconsumed.length < sqEntries := by
    rw [served_request_iff, IoUring.free_iff]
    exact and_iff_left served_nil
  have two (consumed : ℕ) :
      Served sqEntries s.app.uring.tally [.request, .turn consumed, .request, .submit] ↔
        s.TwoFree consumed := by
    rw [twoFree_iff, served_request_iff, served_other_iff (by simp), served_request_iff,
      served_other_iff (by simp)]
    exact and_congr_right fun _ => and_iff_left served_nil
  have none (call : Call) (other : call ≠ .request) : Served sqEntries s.app.uring.tally [call] :=
    (served_other_iff other).mpr served_nil
  cases event with
  | mainAccept answers => exact one.symm
  | mainLog level fmt answers => exact one.symm
  | mainSubmit answers => exact iff_of_true trivial (none _ (by simp))
  | poll count => exact iff_of_true trivial (none _ (by simp))
  | complete index outcome => exact iff_of_true trivial served_nil
  | iterate index answers =>
    simp only [QueueRoom, queueCalls]
    by_cases waited : answers.waitCqe < 0
    · rw [if_pos waited]
      exact iff_of_true (fun c _ positive => absurd positive (not_le.mpr waited)) served_nil
    rw [if_neg waited]
    cases found : s.app.uring.cq[index]? with
    | none => simp [served_nil]
    | some c =>
      simp only [Option.some.injEq, forall_eq', not_lt.mp waited, forall_true_left, Option.elim_some,
        Completion.queueCalls]
      cases c.sqe.request with
      | multishotAccept fd =>
        dsimp only
        by_cases negative : c.cqe.res < 0
        · simp [negative, not_le.mpr negative, served_nil]
        rw [if_neg negative, imp_iff_right (not_lt.mp negative)]
        split
        · exact (two _).symm
        · exact one.symm
      | recvmsgMultishot fd group =>
        dsimp only
        by_cases short : c.cqe.res < recvmsgOutSize
        · rw [if_pos short]
          exact iff_of_true (fun long => absurd long (not_le.mpr short)) served_nil
        rw [if_neg short, imp_iff_right (not_lt.mp short)]
        exact (two _).symm
      | sendZc fd data => exact iff_of_true trivial (none _ (by simp))
      | writeFixed fd buf nbytes offset bid => exact iff_of_true trivial (none _ (by simp))

private theorem logEvent_tally {level : LogLevel} {self logged : Appctx} {args : LogArgs} {answers : Answers}
    (log : logEvent level self args answers = .ok logged) :
    logged.uring.tally = self.uring.tally.after .request := by
  obtain ⟨node, slot, ring, same⟩ := logEvent_uring log
  rw [same, SqeSlot.store_tally, ring]

/-- A handler that returns made all its calls. -/
theorem Handled.tally {self branch : Appctx} {c : Completion} {answers : Answers}
    (handled : Handled self c answers branch) (genuine : c.Genuine) (index : ℕ) :
    (branch.finish index).uring.tally = self.uring.tally.run (c.queueCalls answers) := by
  have finished : (branch.finish index).uring.tally = branch.uring.tally.after .submit := rfl
  rw [finished]
  unfold Completion.queueCalls
  cases handled with
  | write request =>
    rw [request]
    rfl
  | @accept listenfd first next request positive ring log peer =>
    have armed : (self.armed c.cqe.res answers first).uring.tally =
        (self.uring.tally.after .request).after (.turn answers.consumed) := by
      rw [← ring, ← SqeSlot.store_tally first (recvmsgSqe c.cqe.res answers)]
      rfl
    rw [request, logEvent_tally log, armed]
    dsimp only
    rw [if_neg (not_lt.mpr positive), if_pos peer]
    rfl
  | @recvmsg fd group buf logged second request filled log ring =>
    have long := (genuine.filled buf filled).2.1
    have recycled : (logged.recycled buf.bid answers).uring.tally =
        logged.uring.tally.after (.turn answers.consumed) := rfl
    change (second.store (sendSqe (userdataDecode c.cqe.userData) answers)).tally.after _ = _
    rw [request, SqeSlot.store_tally, ring, recycled, logEvent_tally log]
    dsimp only
    rw [if_neg (not_lt.mpr long)]
    rfl
  | send request =>
    rw [request]
    rfl

/-- As long as the process runs, the positions of the queue are the tally of its calls. -/
theorem Reachable.tally_step (reachable : Reachable cfg s) (stepped : step? cfg s event = some next)
    (running : next.stop = none) :
    next.app.uring.tally = s.app.uring.tally.run (s.queueCalls event) := by
  obtain ⟨alive, step⟩ := step_of_step? reachable.requested stepped
  cases step with
  | stops _ stop => cases running
  | @mainAccept answers slot ring => exact (SqeSlot.store_tally ..).trans (by rw [ring]; rfl)
  | mainLog log => exact logEvent_tally log
  | mainSubmit => rfl
  | poll => rfl
  | complete found posted =>
    obtain ⟨c, -, -, -, uring⟩ := posted.genuine
    rw [uring]
    rfl
  | @iterate index answers c branch found handled =>
    have genuine := (reachable.requested.posted c (mem_posted_of_cq found)).2
    have waited : ¬ answers.waitCqe < 0 := by
      intro failed
      have ends : s.Ends cfg (.assertPositive answers.waitCqe) (.iterate index answers) :=
        ⟨c, found, runEventLoopIteration_error_iff.mpr (.inl ⟨failed, rfl⟩)⟩
      rw [← stop_iff_ends stepped, running] at ends
      cases ends
    simp only [State.queueCalls, if_neg waited, found, Option.elim_some]
    exact handled.tally genuine index

end Tally

/-- A run that goes on made all the calls of its steps. -/
theorem Reachable.tally_run {cfg : Config} {s t : State} {events : List Event} (reachable : Reachable cfg s)
    (run : run? (step? cfg) s events = some t) (running : t.stop = none) :
    t.app.uring.tally = s.app.uring.tally.run (trace (step? cfg) State.queueCalls s events) := by
  induction events generalizing s with
  | nil =>
    cases run
    rfl
  | cons event rest ih =>
    obtain ⟨next, stepped, run⟩ := run?_cons_iff.mp run
    have runs : next.stop = none :=
      @run?_reflects _ _ _ next t rest (fun u => u.stop = none)
        (fun _ _ _ stepped _ => running_of_step? stepped) run running
    rw [trace_cons stepped, Tally.run_append, ← reachable.tally_step stepped runs]
    exact ih (reachable.step stepped) run

/-- Room before every step is service of all the calls of the run. -/
theorem along_queueRoom_iff {cfg : Config} {s t : State} {events : List Event}
    (reachable : Reachable cfg s) (run : run? (step? cfg) s events = some t) :
    Along (step? cfg) State.QueueRoom s events ↔
      Served sqEntries s.app.uring.tally (trace (step? cfg) State.queueCalls s events) := by
  induction events generalizing s with
  | nil => exact iff_of_true trivial served_nil
  | cons event rest ih =>
    obtain ⟨next, stepped, run⟩ := run?_cons_iff.mp run
    have only : (∀ other, step? cfg s event = some other → Along (step? cfg) State.QueueRoom other rest) ↔
        Along (step? cfg) State.QueueRoom next rest := by
      simp only [stepped, Option.some.injEq, forall_eq']
    rw [trace_cons stepped, served_append_iff, ← s.queueRoom_iff event, Along, only]
    refine and_congr_right fun _ => ?_
    cases running : next.stop with
    | none => rw [ih (reachable.step stepped) run, reachable.tally_step stepped running]
    | some stop =>
      -- A process that ended takes no further step.
      cases rest with
      | nil => exact iff_of_true trivial served_nil
      | cons event rest =>
        obtain ⟨_, moved, -⟩ := run?_cons_iff.mp run
        rw [running_of_step? moved] at running
        cases running

/-- In every run in which `log_event` always finds a buffer, every queue entry that is asked for is
found if and only if the calls of the run are paced: at each request, and seen from each moment before,
what was requested and not submitted by that moment is less than 16 and what the polling thread may
have taken since. -/
theorem slots_found_iff_paced {cfg : Config} {first s : State} {events : List Event}
    (start : State.initial cfg = .ok first) (run : run? (step? cfg) first events = some s)
    (served : s.stop ≠ some (.assertNotNull .regbuf)) :
    s.SlotsFound ↔ Paced sqEntries (trace (step? cfg) State.queueCalls first events) := by
  have empty : first.app.uring.tally = ⟨0, 0, 0⟩ := by
    rw [(initial_spec start).uring]
    rfl
  rw [slotsFound_iff_along start run served, along_queueRoom_iff (.initial start) run, empty,
    served_iff_paced]

/-- The polling thread consumes the multishot accept and then lags behind; connections arrive. -/
def lagging (connections : ℕ) : List Event :=
  .poll 1 :: (List.range connections).flatMap fun i =>
    [.complete 0 (.accepted (5 + i) true), .iterate 0 calm]

theorem slots_found_iff_paced_lagging : ∃ first s, State.initial calmConfig = .ok first ∧
    run? (step? calmConfig) first (mainEvents (fun _ => calm) ++ lagging 6) = some s ∧
    s.stop = none ∧ (s.SlotsFound ↔ Paced sqEntries
      (trace (step? calmConfig) State.queueCalls first (mainEvents (fun _ => calm) ++ lagging 6))) := by
  have passed : (replay? calmConfig (mainEvents (fun _ => calm) ++ lagging 6)).any
      (fun s => s.stop = none) = true := by decide +kernel
  obtain ⟨first, s, start, run, holds⟩ := exists_of_replay? passed
  have running := of_decide_eq_true holds
  exact ⟨first, s, start, run, running, slots_found_iff_paced start run (by simp [running])⟩

/-- Four log lines and six connections fill the queue; for the seventh connection the receive is
prepared through a null entry. -/
theorem slots_missing_seventh :
    ∃ s, ServerRun calmConfig (fun _ => calm) (lagging 7) s ∧ s.stop = some .nullSqe := by
  have passed : (replay? calmConfig (mainEvents (fun _ => calm) ++ lagging 7)).any
      (fun s => s.stop = some .nullSqe) = true := by decide +kernel
  obtain ⟨s, run, holds⟩ := exists_serverRun (by decide) passed
  exact ⟨s, run, of_decide_eq_true holds⟩

/-- In a server that runs, the requests of its calls are those of the start-up and two for each accept or
message handled. -/
theorem ServerRun.requested {cfg : Config} {answers : Fin 6 → Answers} {events : List Event}
    {first s : State} (run : ServerRun cfg answers events s) (start : State.initial cfg = .ok first)
    (running : s.stop = none) :
    (tally (trace (step? cfg) State.queueCalls first (mainEvents answers ++ events))).requested =
      5 + 2 * s.answered := by
  obtain ⟨other, begun, reached⟩ := run.reached
  obtain rfl : other = first := Except.ok.inj (begun.symm.trans start)
  have counted := (Reachable.initial start).tally_run reached running
  rw [(initial_spec start).uring] at counted
  rw [← run.balanced.requests]
  exact (congrArg Tally.requested counted).symm

end UringServer
