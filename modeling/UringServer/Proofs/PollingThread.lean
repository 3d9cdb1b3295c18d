import UringServer.Lib.Insertion
import UringServer.Proofs.Steps

/-! # A faster polling thread

The program does not wait for the polling thread, and all it sees of the thread is whether the submission
queue has a free entry. So a thread that consumes more, or earlier, is not noticed: wherever turns of the
thread are put between the events of a run that does not stop, the run takes place as before. A server that
runs out of entries with a fast thread runs out of them with every slower one.
-/

namespace UringServer

open Fallible Replay

/-- The same queues with more of the entries consumed. -/
structure IoUring.Ahead (ring ahead : IoUring) : Prop where
  sqes : ahead.sqes = ring.sqes
  ktail : ahead.ktail = ring.ktail
  cq : ahead.cq = ring.cq
  consumed : ∃ k, ahead.khead = ring.khead + k ∧ ahead.live = ring.live ++ ring.unconsumed.take k

namespace IoUring.Ahead

variable {ring ahead : IoUring}

theorem refl (ring : IoUring) : ring.Ahead ring := ⟨rfl, rfl, rfl, 0, rfl, by simp⟩

/-- One more turn of the thread. -/
theorem polled (before : ring.Ahead ahead) (count : ℕ) : ring.Ahead (ahead.poll count) := by
  obtain ⟨sqes, ktail, cq, k, khead, live⟩ := before
  refine ⟨sqes, ktail, cq, k + ahead.pollable count, ?_, ?_⟩
  · change ahead.khead + _ = _
    rw [khead, Nat.add_assoc]
  · have rest : ahead.unconsumed = ring.unconsumed.drop k := by
      rw [unconsumed, unconsumed, sqes, khead, List.drop_drop]
    change ahead.live ++ ahead.unconsumed.take _ = _
    rw [live, rest, List.take_add, List.append_assoc]

/-- The same turn on both sides. -/
theorem poll (before : ring.Ahead ahead) (count : ℕ) : (ring.poll count).Ahead (ahead.poll count) := by
  obtain ⟨sqes, ktail, cq, total, khead, live⟩ := before.polled count
  have enough : ring.pollable count ≤ total := by
    obtain ⟨-, same, -, k, start, -⟩ := before
    have := ahead.khead_le
    have turn : (ahead.poll count).khead = ahead.khead + ahead.pollable count := rfl
    simp only [pollable] at turn ⊢
    omega
  refine ⟨sqes, ktail, cq, total - ring.pollable count, ?_, ?_⟩
  · rw [khead]
    change _ = ring.khead + ring.pollable count + _
    omega
  · have split : ring.unconsumed.take total = ring.unconsumed.take (ring.pollable count) ++
        (ring.poll count).unconsumed.take (total - ring.pollable count) := by
      have rest : (ring.poll count).unconsumed = ring.unconsumed.drop (ring.pollable count) :=
        List.drop_drop.symm
      rw [rest, ← List.take_add, Nat.add_sub_cancel' enough]
    rw [live, split, ← List.append_assoc]
    rfl

/-- An entry that is free for the slower one is free. -/
theorem store {slot : SqeSlot} (before : slot.ring.Ahead ahead) (sqe : Sqe) :
    ∃ faster : SqeSlot, faster.ring = ahead ∧ (slot.store sqe).Ahead (faster.store sqe) := by
  obtain ⟨sqes, ktail, cq, k, khead, live⟩ := before
  have free : ahead.sqes.length < ahead.khead + sqEntries := by
    have := slot.free
    rw [sqes, khead]
    omega
  have few : k ≤ slot.ring.unconsumed.length := by
    have := ahead.khead_le
    have := ahead.ktail_le
    rw [unconsumed, List.length_drop, ← sqes]
    omega
  refine ⟨⟨ahead, free⟩, rfl, congrArg (· ++ [sqe]) sqes, ktail, cq, k, khead, ?_⟩
  rw [store_unconsumed, List.take_append_of_le_length few]
  exact live

theorem submit (before : ring.Ahead ahead) : (ioUringSubmit ring).Ahead (ioUringSubmit ahead) := by
  obtain ⟨sqes, ktail, cq, consumed⟩ := before
  exact ⟨sqes, congrArg List.length sqes, cq, consumed⟩

theorem seen (before : ring.Ahead ahead) (index : ℕ) :
    (ioUringCqeSeen ring index).Ahead (ioUringCqeSeen ahead index) := by
  obtain ⟨sqes, ktail, cq, consumed⟩ := before
  exact ⟨sqes, ktail, congrArg (·.eraseIdx index) cq, consumed⟩

/-- What is live is live in the same place. -/
theorem live (before : ring.Ahead ahead) {index : ℕ} {sqe : Sqe} (found : ring.live[index]? = some sqe) :
    ahead.live[index]? = some sqe := by
  obtain ⟨-, -, -, k, -, live⟩ := before
  obtain ⟨bound, -⟩ := List.getElem?_eq_some_iff.mp found
  rw [live, List.getElem?_append_left bound, found]

theorem post (before : ring.Ahead ahead) {index : ℕ} {sqe : Sqe} (found : ring.live[index]? = some sqe)
    (c : Completion) : (ring.post index c).Ahead (ahead.post index c) := by
  obtain ⟨sqes, ktail, cq, k, khead, live⟩ := before
  obtain ⟨bound, -⟩ := List.getElem?_eq_some_iff.mp found
  refine ⟨sqes, ktail, congrArg (· ++ [c]) cq, k, khead, ?_⟩
  change (if c.more then ahead.live else ahead.live.eraseIdx index) =
    (if c.more then ring.live else ring.live.eraseIdx index) ++ ring.unconsumed.take k
  rw [live, List.eraseIdx_append_of_lt_length bound]
  split <;> rfl

end IoUring.Ahead

namespace Appctx

/-- The context with other queues. -/
def withRing (self : Appctx) (ring : IoUring) : Appctx := { self with uring := ring }

@[simp] theorem withRing_uring (self : Appctx) (ring : IoUring) : (self.withRing ring).uring = ring := rfl

/-- A result that a faster thread would have given as well. -/
def Follows (next : Appctx) (result : Except Stop Appctx) : Prop :=
  ∃ ring, next.uring.Ahead ring ∧ result = .ok (next.withRing ring)

end Appctx

section Program

variable {self next : Appctx} {ring : IoUring} {answers : Answers}

private theorem logEvent_follows {level : LogLevel} {args : LogArgs} (ahead : self.uring.Ahead ring)
    (log : logEvent level self args answers = .ok next) :
    next.Follows (logEvent level (self.withRing ring) args answers) := by
  obtain ⟨node, slot, head, same, rfl⟩ := logEvent_ok_iff.mp log
  obtain ⟨faster, here, stored⟩ := (same ▸ ahead).store (self.writeSqe level args answers node)
  refine ⟨_, stored, logEvent_ok_iff.mpr ⟨node, faster, head, here, rfl⟩⟩

private theorem appctxHandleAccept_follows {cqe : Cqe} (ahead : self.uring.Ahead ring)
    (handled : appctxHandleAccept self cqe answers = .ok next) :
    next.Follows (appctxHandleAccept (self.withRing ring) cqe answers) := by
  obtain ⟨positive, peer, first, same, log⟩ := appctxHandleAccept_ok_iff.mp handled
  obtain ⟨faster, here, stored⟩ := (same ▸ ahead).store (recvmsgSqe cqe.res answers)
  obtain ⟨final, ready, logged⟩ := logEvent_follows (stored.poll answers.consumed) log
  exact ⟨final, ready, appctxHandleAccept_ok_iff.mpr ⟨positive, peer, faster, here, logged⟩⟩

private theorem appctxHandleRecvmsg_follows {cqe : Cqe} (ahead : self.uring.Ahead ring)
    (handled : appctxHandleRecvmsg self cqe answers = .ok next) :
    next.Follows (appctxHandleRecvmsg (self.withRing ring) cqe answers) := by
  obtain ⟨long, logged, log, second, same, rfl⟩ := appctxHandleRecvmsg_ok_iff.mp handled
  obtain ⟨middle, ready, printed⟩ := logEvent_follows ahead log
  have polled : (logged.recycled cqe.bid answers).uring.Ahead (middle.poll answers.consumed) :=
    ready.poll answers.consumed
  rw [← same] at polled
  obtain ⟨faster, here, stored⟩ := polled.store (sendSqe (userdataDecode cqe.userData) answers)
  refine ⟨_, stored, appctxHandleRecvmsg_ok_iff.mpr ⟨long, _, printed, faster, here, rfl⟩⟩

private theorem dispatch_follows {cqe : Cqe} (ahead : self.uring.Ahead ring)
    (dispatched : dispatch self cqe answers = .ok next) :
    next.Follows (dispatch (self.withRing ring) cqe answers) := by
  unfold dispatch at dispatched ⊢
  dsimp only at dispatched ⊢
  split at dispatched
  · cases dispatched
    exact ⟨ring, ahead, rfl⟩
  · cases dispatched
    exact ⟨ring, ahead, rfl⟩
  · cases dispatched
    exact ⟨ring, ahead, rfl⟩
  · exact appctxHandleAccept_follows ahead dispatched
  · exact appctxHandleRecvmsg_follows ahead dispatched
  · cases dispatched
    exact ⟨ring, ahead, rfl⟩

private theorem runEventLoopIteration_follows {index : ℕ} {cqe : Cqe} (ahead : self.uring.Ahead ring)
    (iterated : runEventLoopIteration self index cqe answers = .ok next) :
    next.Follows (runEventLoopIteration (self.withRing ring) index cqe answers) := by
  obtain ⟨waited, submitted, branch, dispatched, rfl⟩ := runEventLoopIteration_ok_iff.mp iterated
  obtain ⟨final, ready, followed⟩ := dispatch_follows ahead dispatched
  refine ⟨_, (ready.seen index).submit, ?_⟩
  exact runEventLoopIteration_ok_iff.mpr ⟨waited, submitted, _, followed, rfl⟩

private theorem mainAccept_follows {socketfd : ℤ} (ahead : self.uring.Ahead ring)
    (queued : mainAccept socketfd self answers = .ok next) :
    next.Follows (mainAccept socketfd (self.withRing ring) answers) := by
  obtain ⟨slot, found, done⟩ := bind_ok_iff.mp queued
  have same := ioUringGetSqe_eq_some_iff.mp (assertNotNull_ok_iff.mp found)
  obtain ⟨faster, here, stored⟩ := (same ▸ ahead).store (acceptSqe socketfd answers)
  cases done
  refine ⟨_, stored, bind_ok_iff.mpr ⟨faster, ?_, rfl⟩⟩
  exact assertNotNull_ok_iff.mpr (ioUringGetSqe_eq_some_iff.mpr here)

private theorem mainSubmit_follows (ahead : self.uring.Ahead ring)
    (submitted : mainSubmit self answers = .ok next) :
    next.Follows (mainSubmit (self.withRing ring) answers) := by
  obtain ⟨_, passed, done⟩ := bind_ok_iff.mp submitted
  cases done
  exact ⟨_, ahead.submit, bind_ok_iff.mpr ⟨_, passed, rfl⟩⟩

end Program

/-- The state with other queues. -/
def State.withRing (s : State) (ring : IoUring) : State := { s with app := s.app.withRing ring }

/-- The same state with more of the queue consumed. -/
def State.Ahead (s ahead : State) : Prop := ∃ ring, s.app.uring.Ahead ring ∧ ahead = s.withRing ring

section Machine

variable {cfg : Config} {s next : State} {ring : IoUring} {index : ℕ}

private theorem proceed_follows {result faster : Except Stop Appctx}
    (follows : ∀ app, result = .ok app → app.Follows faster) (running : (s.proceed result).stop = none) :
    (s.proceed result).Ahead ((s.withRing ring).proceed faster) := by
  cases result with
  | error stop => cases running
  | ok app =>
    obtain ⟨final, ready, same⟩ := follows app rfl
    rw [same]
    exact ⟨final, ready, rfl⟩

private theorem accept_follows {sqe : Sqe} {fd : ℤ} {more : Bool} (ahead : s.app.uring.Ahead ring)
    (found : s.app.uring.live[index]? = some sqe) (accepted : s.accept? index sqe fd more = some next) :
    ∃ after, (s.withRing ring).accept? index sqe fd more = some after ∧ next.Ahead after := by
  unfold State.accept? at *
  split at accepted
  · next allowed =>
    cases accepted
    exact ⟨_, if_pos allowed, _, ahead.post found _, rfl⟩
  · cases accepted

private theorem receive_follows {sqe : Sqe} {group : ℕ} {payload : List Char} {more : Bool}
    (ahead : s.app.uring.Ahead ring) (found : s.app.uring.live[index]? = some sqe)
    (received : s.receive? index sqe group payload more = some next) :
    ∃ after, (s.withRing ring).receive? index sqe group payload more = some after ∧
      next.Ahead after := by
  simp only [State.receive?, bind, Option.bind_eq_some_iff, Prod.exists] at received
  obtain ⟨ringIndex, known, buf, br, taken, received⟩ := received
  split_ifs at received with fits
  cases received
  refine ⟨_, ?_, _, ahead.post found _, rfl⟩
  simp only [State.receive?, bind, Option.bind_eq_some_iff, Prod.exists]
  exact ⟨ringIndex, known, buf, br, taken, if_pos fits⟩

private theorem write_follows {sqe : Sqe} {buf : Ptr} {nbytes offset bufIndex : ℕ}
    (ahead : s.app.uring.Ahead ring) (found : s.app.uring.live[index]? = some sqe)
    (written : s.write? index sqe buf nbytes offset bufIndex = some next) :
    ∃ after, (s.withRing ring).write? index sqe buf nbytes offset bufIndex = some after ∧
      next.Ahead after := by
  unfold State.write? at *
  dsimp only at written ⊢
  split at written
  · next inside =>
    cases written
    exact ⟨_, if_pos inside, _, ahead.post found _, rfl⟩
  · cases written

/-- What the kernel does to a live request it does as well when more requests are live. -/
private theorem complete_follows {outcome : Outcome} (ahead : s.app.uring.Ahead ring)
    (completed : s.complete? index outcome = some next) :
    ∃ after, (s.withRing ring).complete? index outcome = some after ∧ next.Ahead after := by
  obtain ⟨sqe, found, -⟩ := Option.bind_eq_some_iff.mp completed
  have live : (s.withRing ring).app.uring.live[index]? = some sqe := ahead.live found
  simp only [State.complete?, found, live, bind, Option.bind_some] at completed ⊢
  split at completed
  · exact accept_follows ahead found completed
  · exact receive_follows ahead found completed
  · exact write_follows ahead found completed
  · split at completed
    · next allowed =>
      cases completed
      exact ⟨_, if_pos allowed, _, ahead.post found _, rfl⟩
    · cases completed
  · cases completed

end Machine

/-- A turn of the polling thread. -/
def Event.IsPoll : Event → Prop
  | .poll _ => True
  | _ => False

section Run

variable {cfg : Config} {s ahead next : State} {event : Event}

private theorem step?_running (stepped : step? cfg s event = some next) : s.stop = none := by
  cases running : s.stop with
  | none => rfl
  | some stop => simp [step?, running] at stepped

/-- A step that does not stop is taken as well with more of the queue consumed. -/
theorem step?_follows (before : s.Ahead ahead) (living : next.stop = none)
    (stepped : step? cfg s event = some next) :
    ∃ after, step? cfg ahead event = some after ∧ next.Ahead after := by
  have running := step?_running stepped
  obtain ⟨ring, before, rfl⟩ := before
  have same : (s.withRing ring).stop = none := running
  simp only [step?, running, same, Option.isSome_none, Bool.false_eq_true, if_false] at stepped ⊢
  cases event with
  | mainAccept answers =>
    cases stepped
    exact ⟨_, rfl, proceed_follows (fun app queued => mainAccept_follows before queued) living⟩
  | mainLog level fmt answers =>
    cases stepped
    exact ⟨_, rfl, proceed_follows (fun app log => logEvent_follows before log) living⟩
  | mainSubmit answers =>
    cases stepped
    exact ⟨_, rfl, proceed_follows (fun app submitted => mainSubmit_follows before submitted) living⟩
  | poll count =>
    cases stepped
    exact ⟨_, rfl, _, before.poll count, rfl⟩
  | complete index outcome => exact complete_follows before stepped
  | iterate index answers =>
    obtain ⟨c, found, rfl⟩ := Option.map_eq_some_iff.mp stepped
    have waiting : (s.withRing ring).app.uring.cq[index]? = some c := before.cq ▸ found
    refine ⟨_, Option.map_eq_some_iff.mpr ⟨c, waiting, rfl⟩, ?_⟩
    unfold State.iterate at living ⊢
    cases iterated : runEventLoopIteration s.app index c.cqe answers with
    | error stop => simp [iterated] at living
    | ok app =>
      obtain ⟨final, ready, followed⟩ := runEventLoopIteration_follows before iterated
      have faster : runEventLoopIteration (s.withRing ring).app index c.cqe answers =
        .ok (app.withRing final) := followed
      rw [faster]
      exact ⟨final, ready, rfl⟩

end Run

/-- Wherever further turns of the polling thread are put between the events of a run that does not stop,
the run takes place all the same and ends in the same state, except that more of the queue may be
consumed. -/
theorem polling_is_unseen {cfg : Config} {first s : State} {events faster : List Event}
    (inserted : Inserted Event.IsPoll events faster) (run : run? (step? cfg) first events = some s)
    (running : s.stop = none) : ∃ ahead, run? (step? cfg) first faster = some ahead ∧ s.Ahead ahead := by
  have start : first.Ahead first := ⟨first.app.uring, .refl _, rfl⟩
  refine inserted.run (fun _ _ _ => step?_running) (fun _ _ _ _ => step?_follows) ?_ start run running
  intro source ahead event polls before living
  obtain ⟨ring, before, rfl⟩ := before
  have same : ¬ (source.withRing ring).stop.isSome := Option.not_isSome_iff_eq_none.mpr living
  cases event with
  | poll count => exact ⟨_, if_neg same, _, before.polled count, rfl⟩
  | _ => exact polls.elim

/-- A connection is accepted, and the two entries of its handler are consumed or not. -/
theorem polling_is_unseen_accept : ∃ first s ahead, State.initial calmConfig = .ok first ∧
    run? (step? calmConfig) first (calmStart ++ [.complete 0 (.accepted 5 true), .iterate 0 calm]) =
      some s ∧
    run? (step? calmConfig) first
      (calmStart ++ [.poll 3, .complete 0 (.accepted 5 true), .iterate 0 calm, .poll 2]) = some ahead ∧
    s.app.uring.unconsumed.length = 2 ∧ s.Ahead ahead := by
  have passed : (replay? calmConfig (calmStart ++ [.complete 0 (.accepted 5 true), .iterate 0 calm])).any
      (fun s => s.stop = none ∧ s.app.uring.unconsumed.length = 2) = true := by decide +kernel
  obtain ⟨first, s, start, run, holds⟩ := exists_of_replay? passed
  obtain ⟨running, waiting⟩ := of_decide_eq_true holds
  have inserted : Inserted Event.IsPoll (calmStart ++ [.complete 0 (.accepted 5 true), .iterate 0 calm])
      (calmStart ++ [.poll 3, .complete 0 (.accepted 5 true), .iterate 0 calm, .poll 2]) :=
    .behind calmStart (.put trivial (.keep (.keep (.put trivial .nil))))
  obtain ⟨ahead, faster, unseen⟩ := polling_is_unseen inserted run running
  exact ⟨first, s, ahead, start, run, faster, waiting, unseen⟩

end UringServer
