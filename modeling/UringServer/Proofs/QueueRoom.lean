import UringServer.Proofs.LogBuffers

/-! # Room in the submission queue

A handler asks for two entries and log lines of `main` for one. Submitting publishes entries and
waits for nothing, so whether an entry is free depends on how far the polling thread has come. The
occupancy before a step decides it exactly.
-/

namespace UringServer

open Fallible Replay

namespace State

/-- No request for a queue entry was refused: neither an unchecked use of a null entry nor a failed
check of one ended the process. -/
def SlotsFound (s : State) : Prop := s.stop ≠ some .nullSqe ∧ s.stop ≠ some (.assertNotNull .sqe)

/-- A first entry is free, and a second one once the polling thread consumed `consumed` more. -/
def TwoFree (s : State) (consumed : ℕ) : Prop :=
  s.app.uring.unconsumed.length < sqEntries ∧
    s.app.uring.unconsumed.length + 1 < sqEntries + s.app.uring.pollable consumed

/-- The queue has room for what the event queues. -/
def QueueRoom (s : State) : Event → Prop
  | .mainAccept _ => s.app.uring.unconsumed.length < sqEntries
  | .mainLog _ _ _ => s.app.uring.unconsumed.length < sqEntries
  | .iterate index answers => ∀ c, s.app.uring.cq[index]? = some c → 0 ≤ answers.waitCqe →
      match c.sqe.request with
      | .multishotAccept _ => 0 ≤ c.cqe.res →
          if (answers.getpeername c.cqe.res).1 ≤ 0 then s.TwoFree answers.consumed
          else s.app.uring.unconsumed.length < sqEntries
      | .recvmsgMultishot _ _ => (recvmsgOutSize : ℤ) ≤ c.cqe.res → s.TwoFree answers.consumed
      | _ => True
  | _ => True

end State

/-- The two ways in which a missing queue entry ends the process. -/
def Stop.NoSlot (stop : Stop) : Prop := stop = .nullSqe ∨ stop = .assertNotNull .sqe

private theorem Stop.not_noSlot_assertPositive (code : ℤ) : ¬ Stop.NoSlot (.assertPositive code) := by
  simp [Stop.NoSlot]

private theorem Stop.not_noSlot_out : ¬ Stop.NoSlot (.assertNotNull .out) := by
  simp [Stop.NoSlot]

section Room

variable {self : Appctx} {cqe : Cqe} {answers : Answers}

/-- The queue is full after one more entry if the polling thread did not make up for it. -/
theorem store_poll_full_iff (slot : SqeSlot) (sqe : Sqe) (count : ℕ) :
    ((slot.store sqe).poll count).unconsumed.length = sqEntries ↔
      ¬ slot.ring.unconsumed.length + 1 < sqEntries + slot.ring.pollable count := by
  have length := (slot.store sqe).poll_unconsumed_length count
  have most := ((slot.store sqe).poll count).unconsumed_length_le
  have same : (slot.store sqe).pollable count = slot.ring.pollable count := rfl
  rw [IoUring.store_unconsumed, List.length_append, List.length_singleton, same] at length
  omega

theorem logEvent_noSlot_iff (self : Appctx) {level : LogLevel} {args : LogArgs}
    (free : self.bufpool.freelistHead ≠ none) :
    (∃ stop, Stop.NoSlot stop ∧ logEvent level self args answers = .error stop) ↔
      ¬ self.uring.unconsumed.length < sqEntries := by
  have most := self.uring.unconsumed_length_le
  simp only [logEvent_error_iff, free, false_and, not_false_eq_true, true_and, false_or, ne_eq]
  constructor
  · rintro ⟨stop, -, full, -⟩
    omega
  · intro full
    exact ⟨_, .inr rfl, by omega, rfl⟩

/-- The accept handler misses an entry for its receive or, after that, one for its log line. -/
theorem appctxHandleAccept_noSlot_iff
    (served : appctxHandleAccept self cqe answers ≠ .error (.assertNotNull .regbuf)) :
    (∃ stop, Stop.NoSlot stop ∧ appctxHandleAccept self cqe answers = .error stop) ↔
      0 ≤ cqe.res ∧ (¬ self.uring.unconsumed.length < sqEntries ∨
        ((answers.getpeername cqe.res).1 ≤ 0 ∧
          ¬ self.uring.unconsumed.length + 1 < sqEntries + self.uring.pollable answers.consumed)) := by
  have most := self.uring.unconsumed_length_le
  have second (positive : 0 ≤ cqe.res) (success : (answers.getpeername cqe.res).1 ≤ 0)
      (first : SqeSlot) (ring : first.ring = self.uring) :
      (∃ stop, Stop.NoSlot stop ∧ logEvent .debug (self.armed cqe.res answers first)
        (.newConnection (addrText (answers.getpeername cqe.res).2)) answers = .error stop) ↔
      ¬ self.uring.unconsumed.length + 1 < sqEntries + self.uring.pollable answers.consumed := by
    have free : self.bufpool.freelistHead ≠ none := fun empty => served
      (appctxHandleAccept_regbuf_iff.mpr ⟨⟨positive, exists_slot_iff.mp ⟨first, ring⟩, success⟩, empty⟩)
    have full := store_poll_full_iff first (recvmsgSqe cqe.res answers) answers.consumed
    have bound := (self.armed cqe.res answers first).uring.unconsumed_length_le
    have same : (self.armed cqe.res answers first).uring =
      (first.store (recvmsgSqe cqe.res answers)).poll answers.consumed := rfl
    rw [logEvent_noSlot_iff (self.armed cqe.res answers first) free, ← ring, ← full, same]
    rw [same] at bound
    omega
  simp only [appctxHandleAccept_error_iff]
  constructor
  · rintro ⟨stop, missing,
      ⟨-, rfl⟩ | ⟨positive, full, rfl⟩ | ⟨positive, first, ring, ⟨-, rfl⟩ | ⟨success, failed⟩⟩⟩
    · exact absurd missing (Stop.not_noSlot_assertPositive _)
    · exact ⟨positive, .inl (by omega)⟩
    · exact absurd missing (Stop.not_noSlot_assertPositive _)
    · exact ⟨positive, .inr ⟨success, (second positive success first ring).mp ⟨stop, missing, failed⟩⟩⟩
  · rintro ⟨positive, missing⟩
    by_cases room : self.uring.unconsumed.length < sqEntries
    · obtain ⟨first, ring⟩ := exists_slot_iff.mpr room
      obtain ⟨success, full⟩ := missing.resolve_left (not_not.mpr room)
      obtain ⟨stop, noSlot, failed⟩ := (second positive success first ring).mpr full
      exact ⟨stop, noSlot, .inr (.inr ⟨positive, first, ring, .inr ⟨success, failed⟩⟩)⟩
    · exact ⟨.nullSqe, .inl rfl, .inr (.inl ⟨positive, by omega, rfl⟩)⟩

/-- The recvmsg handler misses an entry for its log line or, after that, one for its reply. -/
theorem appctxHandleRecvmsg_noSlot_iff
    (served : appctxHandleRecvmsg self cqe answers ≠ .error (.assertNotNull .regbuf)) :
    (∃ stop, Stop.NoSlot stop ∧ appctxHandleRecvmsg self cqe answers = .error stop) ↔
      (recvmsgOutSize : ℤ) ≤ cqe.res ∧ (¬ self.uring.unconsumed.length < sqEntries ∨
        ¬ self.uring.unconsumed.length + 1 < sqEntries + self.uring.pollable answers.consumed) := by
  have free (long : (recvmsgOutSize : ℤ) ≤ cqe.res) : self.bufpool.freelistHead ≠ none :=
    fun empty => served (appctxHandleRecvmsg_regbuf_iff.mpr ⟨long, empty⟩)
  have second (logged : Appctx)
      (log : logEvent .debug self (self.packetArgs cqe) answers = .ok logged) :
      (logged.recycled cqe.bid answers).uring.unconsumed.length = sqEntries ↔
      ¬ self.uring.unconsumed.length + 1 < sqEntries + self.uring.pollable answers.consumed := by
    obtain ⟨node, slot, ring, same⟩ := logEvent_uring log
    have polled : (logged.recycled cqe.bid answers).uring = logged.uring.poll answers.consumed := rfl
    rw [polled, same, store_poll_full_iff, ring]
  simp only [appctxHandleRecvmsg_error_iff]
  constructor
  · rintro ⟨stop, missing, ⟨-, rfl⟩ | ⟨-, -, rfl⟩ | ⟨long, failed | ⟨logged, log, full, rfl⟩⟩⟩
    · exact absurd missing (Stop.not_noSlot_assertPositive _)
    · exact absurd missing Stop.not_noSlot_out
    · exact ⟨long, .inl ((logEvent_noSlot_iff self (free long)).mp ⟨stop, missing, failed⟩)⟩
    · exact ⟨long, .inr ((second logged log).mp full)⟩
  · rintro ⟨long, missing⟩
    by_cases room : self.uring.unconsumed.length < sqEntries
    · obtain ⟨slot, ring⟩ := exists_slot_iff.mpr room
      obtain ⟨node, head⟩ := Option.ne_none_iff_exists'.mp (free long)
      have log : logEvent .debug self (self.packetArgs cqe) answers = .ok _ :=
        logEvent_ok_iff.mpr ⟨node, slot, head, ring, rfl⟩
      have full := (second _ log).mpr (missing.resolve_left (not_not.mpr room))
      exact ⟨.nullSqe, .inl rfl, .inr (.inr ⟨long, .inr ⟨_, log, full, rfl⟩⟩)⟩
    · obtain ⟨stop, noSlot, failed⟩ := (logEvent_noSlot_iff self (free long)).mpr room
      exact ⟨stop, noSlot, .inr (.inr ⟨long, .inl failed⟩)⟩

/-- Only the handler of an iteration asks for queue entries. -/
private theorem runEventLoopIteration_noSlot_iff {index : ℕ} :
    (∃ stop, Stop.NoSlot stop ∧ runEventLoopIteration self index cqe answers = .error stop) ↔
      0 ≤ answers.waitCqe ∧ ∃ stop, Stop.NoSlot stop ∧ dispatch self cqe answers = .error stop := by
  simp only [runEventLoopIteration_error_iff]
  constructor
  · rintro ⟨stop, missing, ⟨-, rfl⟩ | ⟨waited, failed⟩ | ⟨-, -, rfl, -⟩⟩
    · exact absurd missing (Stop.not_noSlot_assertPositive _)
    · exact ⟨waited, stop, missing, failed⟩
    · exact absurd missing (Stop.not_noSlot_assertPositive _)
  · rintro ⟨waited, stop, missing, failed⟩
    exact ⟨stop, missing, .inr (.inl ⟨waited, failed⟩)⟩

end Room

/-- While the pool serves every pop, a step ends the process for want of a queue entry exactly when
the queue had no room for it. -/
theorem ends_noSlot_iff {cfg : Config} {s : State} {event : Event}
    (requested : Requested s.app.uring s.handled)
    (served : ¬ s.Ends cfg (.assertNotNull .regbuf) event) :
    (∃ stop, Stop.NoSlot stop ∧ s.Ends cfg stop event) ↔ ¬ s.QueueRoom event := by
  have most := s.app.uring.unconsumed_length_le
  cases event with
  | mainAccept answers =>
    simp only [State.Ends, State.QueueRoom, mainAccept_error_iff]
    constructor
    · rintro ⟨stop, -, full, -⟩
      omega
    · intro full
      exact ⟨_, .inr rfl, by omega, rfl⟩
  | mainLog level fmt answers =>
    have free : s.app.bufpool.freelistHead ≠ none :=
      fun empty => served ((ends_regbuf_iff requested).mpr ⟨trivial, empty⟩)
    exact logEvent_noSlot_iff s.app free
  | mainSubmit answers =>
    simp only [State.Ends, State.QueueRoom, mainSubmit_error_iff, not_true_eq_false, iff_false]
    rintro ⟨stop, missing, -, rfl⟩
    exact absurd missing (Stop.not_noSlot_assertPositive _)
  | poll count => simp [State.Ends, State.QueueRoom]
  | complete index outcome => simp [State.Ends, State.QueueRoom]
  | iterate index answers =>
    cases found : s.app.uring.cq[index]? with
    | none => simp [State.Ends, State.QueueRoom, found]
    | some c =>
      obtain ⟨origin, genuine⟩ := requested.posted c (mem_posted_of_cq found)
      simp only [State.Ends, State.QueueRoom, found, Option.some.injEq, exists_eq_left',
        forall_eq'] at served ⊢
      rw [runEventLoopIteration_noSlot_iff, Classical.not_imp]
      refine and_congr_right fun waited => ?_
      have dispatched : dispatch s.app c.cqe answers ≠ .error (.assertNotNull .regbuf) :=
        fun failed => served (runEventLoopIteration_error_iff.mpr (.inr (.inl ⟨waited, failed⟩)))
      rw [dispatch_eq genuine (requested.tagged _ origin)] at dispatched ⊢
      generalize c.sqe.request = request at dispatched ⊢
      cases request with
      | multishotAccept fd =>
        dsimp only at dispatched ⊢
        rw [appctxHandleAccept_noSlot_iff dispatched, Classical.not_imp]
        refine and_congr_right fun positive => ?_
        by_cases success : (answers.getpeername c.cqe.res).1 ≤ 0
        · rw [if_pos success, State.TwoFree, not_and_or]
          simp only [success, true_and]
        · rw [if_neg success]
          simp only [success, false_and, or_false]
      | recvmsgMultishot fd group =>
        dsimp only at dispatched ⊢
        rw [appctxHandleRecvmsg_noSlot_iff dispatched, Classical.not_imp, State.TwoFree, not_and_or]
      | sendZc fd data => simp
      | writeFixed fd buf nbytes offset bid => simp

/-- In every run in which `log_event` always finds a buffer, every queue entry that is asked for is
found if and only if every step starts with room for the entries it asks for. -/
theorem slotsFound_iff_along {cfg : Config} {first s : State} {events : List Event}
    (start : State.initial cfg = .ok first) (run : run? (step? cfg) first events = some s)
    (served : s.stop ≠ some (.assertNotNull .regbuf)) :
    s.SlotsFound ↔ Along (step? cfg) State.QueueRoom first events := by
  have moves (s : State) (event : Event) (next : State) (stepped : step? cfg s event = some next) :
      s.stop = none := running_of_step? stepped
  have found (s : State) (event : Event) (next : State) (stepped : step? cfg s event = some next) :
      s.SlotsFound := by simp [State.SlotsFound, moves s event next stepped]
  have lived (s : State) (event : Event) (next : State) (stepped : step? cfg s event = some next)
      (_ : next.stop ≠ some (.assertNotNull .regbuf)) : s.stop ≠ some (.assertNotNull .regbuf) := by
    simp [moves s event next stepped]
  have exact_step (s : State) (event : Event) (next : State) (reachable : Reachable cfg s)
      (_ : s.SlotsFound) (served : next.stop ≠ some (.assertNotNull .regbuf))
      (stepped : step? cfg s event = some next) : next.SlotsFound ↔ s.QueueRoom event := by
    rw [ne_eq, stop_iff_ends stepped] at served
    have missing := ends_noSlot_iff reachable.requested served
    rw [← not_iff_not, ← missing, State.SlotsFound, not_and_or, not_not, not_not,
      stop_iff_ends stepped, stop_iff_ends stepped]
    constructor
    · rintro (null | refused)
      · exact ⟨_, .inl rfl, null⟩
      · exact ⟨_, .inr rfl, refused⟩
    · rintro ⟨stop, rfl | rfl, ended⟩
      · exact .inl ended
      · exact .inr ended
  have keeps (s : State) (event : Event) (next : State) (reachable : Reachable cfg s)
      (stepped : step? cfg s event = some next) : Reachable cfg next := reachable.step stepped
  have initially : first.SlotsFound := by simp [State.SlotsFound, (initial_spec start).stop]
  rw [← throughout_iff_endpoint found run]
  exact throughout_iff_along keeps lived exact_step (.initial start) initially run served

end UringServer
