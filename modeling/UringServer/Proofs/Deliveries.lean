import UringServer.Proofs.Steps

/-! # Replies and lines that do not arrive

The loop looks at the results of accepts and messages only. A send ends in the default branch of its
switch, and a write gives its buffer back whatever became of it. So the server never learns whether a
reply or a line arrived: let the kernel end them with any results it likes, and the same run takes place.
-/

namespace UringServer

open Fallible Replay

/-- The same queues with other completions. -/
def IoUring.withCq (ring : IoUring) (cq : List Completion) : IoUring := { ring with cq := cq }

/-- The context with other completions in its queue. -/
def Appctx.withCq (self : Appctx) (cq : List Completion) : Appctx :=
  { self with uring := self.uring.withCq cq }

section Program

variable {self : Appctx} {cq : List Completion} {answers : Answers}

/-- A free entry is looked for without a look at the completions. -/
private theorem ioUringGetSqe_withCq (ring : IoUring) (cq : List Completion) :
    ioUringGetSqe (ring.withCq cq) =
      (ioUringGetSqe ring).map fun slot => ⟨slot.ring.withCq cq, slot.free⟩ := by
  by_cases free : ring.sqes.length < ring.khead + sqEntries
  · have same : (ring.withCq cq).sqes.length < (ring.withCq cq).khead + sqEntries := free
    rw [ioUringGetSqe, ioUringGetSqe, dif_pos free, dif_pos same]
    rfl
  · have same : ¬ (ring.withCq cq).sqes.length < (ring.withCq cq).khead + sqEntries := free
    rw [ioUringGetSqe, ioUringGetSqe, dif_neg free, dif_neg same]
    rfl

theorem logEvent_withCq (self : Appctx) (level : LogLevel) (args : LogArgs) :
    logEvent level (self.withCq cq) args answers =
      (logEvent level self args answers).map (·.withCq cq) := by
  simp only [logEvent, Appctx.withCq, ioUringGetSqe_withCq]
  cases bufpoolPop self.bufpool with
  | none => rfl
  | some popped => cases ioUringGetSqe self.uring <;> rfl

private theorem appctxHandleAccept_withCq (cqe : Cqe) :
    appctxHandleAccept (self.withCq cq) cqe answers =
      (appctxHandleAccept self cqe answers).map (·.withCq cq) := by
  simp only [appctxHandleAccept]
  cases assertPositive cqe.res with
  | error stop => rfl
  | ok passed =>
    change (useSqe (ioUringGetSqe (self.uring.withCq cq)) >>= _) = _
    rw [ioUringGetSqe_withCq]
    cases ioUringGetSqe self.uring with
    | none => rfl
    | some slot =>
      cases formatInetAddrFromSockfd answers.getpeername cqe.res fmtAddrlen with
      | error stop => rfl
      | ok fmtAddr =>
        let armed : Appctx :=
          { self with
            uring := slot.store (recvmsgSqe cqe.res answers)
            fmtAddr := fmtAddr }
        exact logEvent_withCq (armed.poll answers.consumed) .debug (.newConnection fmtAddr)

private theorem appctxHandleRecvmsg_withCq (cqe : Cqe) :
    appctxHandleRecvmsg (self.withCq cq) cqe answers =
      (appctxHandleRecvmsg self cqe answers).map (·.withCq cq) := by
  simp only [appctxHandleRecvmsg]
  cases assertPositive cqe.res with
  | error stop => rfl
  | ok passed =>
    have rings : (self.withCq cq).bufrings = self.bufrings := rfl
    have sender : (self.withCq cq).fmtAddr = self.fmtAddr := rfl
    rw [rings, sender]
    cases assertNotNull .out (ioUringRecvmsgValidate
        ((self.bufrings bufringsConn).bufs (cqe.flags >>> ioringCqeBufferShift)).iovBase cqe.res ⟨0, 0⟩) with
    | error stop => rfl
    | ok out =>
      simp only [bind, Except.bind, logEvent_withCq]
      cases logEvent .debug self _ answers with
      | error stop => rfl
      | ok logged =>
        simp only [Except.map]
        change Except.bind (useSqe (ioUringGetSqe ((logged.poll answers.consumed).uring.withCq cq))) _ = _
        rw [ioUringGetSqe_withCq]
        change _ = Except.map _ (Except.bind (useSqe (ioUringGetSqe (logged.poll answers.consumed).uring)) _)
        cases ioUringGetSqe (logged.poll answers.consumed).uring <;> rfl

private theorem dispatch_withCq (cqe : Cqe) :
    dispatch (self.withCq cq) cqe answers = (dispatch self cqe answers).map (·.withCq cq) := by
  simp only [dispatch]
  split
  · rfl
  · rfl
  · rfl
  · exact appctxHandleAccept_withCq cqe
  · exact appctxHandleRecvmsg_withCq cqe
  · rfl

private theorem runEventLoopIteration_withCq (index : ℕ) (cqe : Cqe) :
    runEventLoopIteration (self.withCq cq) index cqe answers =
      (runEventLoopIteration self index cqe answers).map (·.withCq (cq.eraseIdx index)) := by
  simp only [runEventLoopIteration, dispatch_withCq]
  cases assertPositive answers.waitCqe with
  | error stop => rfl
  | ok waited =>
    cases dispatch self cqe answers with
    | error stop => rfl
    | ok branch => cases assertPositive answers.submit <;> rfl

private theorem mainAccept_withCq (socketfd : ℤ) :
    mainAccept socketfd (self.withCq cq) answers = (mainAccept socketfd self answers).map (·.withCq cq) := by
  simp only [mainAccept, Appctx.withCq, ioUringGetSqe_withCq]
  cases ioUringGetSqe self.uring <;> rfl

private theorem mainSubmit_withCq :
    mainSubmit (self.withCq cq) answers = (mainSubmit self answers).map (·.withCq cq) := by
  simp only [mainSubmit]
  cases assertPositive answers.submit <;> rfl

end Program

/-- The request reports back on something that the server has put out: a reply or a line. -/
def Request.isDelivery : Request → Bool
  | .sendZc _ _ | .writeFixed _ _ _ _ _ => true
  | .multishotAccept _ | .recvmsgMultishot _ _ => false

/-- The completion without the result of a delivery. -/
def Completion.blurred (c : Completion) : Completion :=
  if c.sqe.request.isDelivery then { c with cqe := { c.cqe with res := 0 } } else c

/-- The state without the results of deliveries and without what was stored of them. -/
def State.blurred (s : State) : State :=
  { s with
    app := s.app.withCq (s.app.uring.cq.map Completion.blurred)
    handled := s.handled.map Completion.blurred
    file := []
    written := [] }

/-- Whether further completions of the request follow. -/
def Outcome.more : Outcome → Bool
  | .accepted _ more | .received _ more | .ended _ more => more
  | .written => false

/-- The event with another outcome, if it completes a delivery. -/
def State.overruled (result : State → ℕ → ℤ) (s : State) : Event → Event
  | .complete index outcome =>
      if (s.app.uring.live[index]?).any (·.request.isDelivery) then
        .complete index (.ended (result s index) outcome.more)
      else .complete index outcome
  | event => event

section Blurred

variable {cfg : Config} {s other next : State} {c d : Completion} {cq handled : List Completion}

private theorem Completion.blurred_sqe (same : d.blurred = c.blurred) : d.sqe = c.sqe := by
  have kept (c : Completion) : c.blurred.sqe = c.sqe := by unfold blurred; split <;> rfl
  rw [← kept d, same, kept]

/-- Completions that differ in the result of a delivery only. -/
private theorem Completion.blurred_cases (same : d.blurred = c.blurred) :
    (c.sqe.request.isDelivery = true ∧ d.cqe.userData = c.cqe.userData) ∨ d = c := by
  have sqe := blurred_sqe same
  unfold blurred at same
  rw [sqe] at same
  split at same
  · next delivery => exact .inl ⟨delivery, congrArg (·.cqe.userData) same⟩
  · exact .inr same

/-- What the loop does about a completion does not depend on the result of a delivery. -/
private theorem dispatch_blurred {self : Appctx} {answers : Answers} (same : d.blurred = c.blurred)
    (genuine : c.Genuine) (tagged : c.sqe.Tagged) :
    dispatch self d.cqe answers = dispatch self c.cqe answers := by
  obtain ⟨delivery, userData⟩ | rfl := Completion.blurred_cases same
  · simp only [dispatch, userData, decoded_op genuine tagged, Opcode.ofCode?_code]
    cases request : c.sqe.request with
    | multishotAccept _ => simp [request, Request.isDelivery] at delivery
    | recvmsgMultishot _ _ => simp [request, Request.isDelivery] at delivery
    | sendZc _ _ => rfl
    | writeFixed _ _ _ _ _ => rfl
  · rfl

/-- The state with other completions and another file behind stderr. -/
def State.retold (s : State) (cq handled : List Completion) (file : List Char)
    (written : List (List Char)) : State :=
  { s with
    app := s.app.withCq cq
    handled := handled
    file := file
    written := written }

/-- States that look alike are the same except for completions and the file. -/
private theorem State.blurred_eq_iff : other.blurred = s.blurred ↔ ∃ cq handled file written,
    other = s.retold cq handled file written ∧
      cq.map Completion.blurred = s.app.uring.cq.map Completion.blurred ∧
      handled.map Completion.blurred = s.handled.map Completion.blurred := by
  constructor
  · intro same
    refine ⟨other.app.uring.cq, other.handled, other.file, other.written, ?_, ?_, ?_⟩
    · have app : other.blurred.app.withCq other.app.uring.cq = s.blurred.app.withCq other.app.uring.cq :=
        congrArg (fun t : State => t.app.withCq other.app.uring.cq) same
      have openFds : other.blurred.openFds = s.blurred.openFds := congrArg State.openFds same
      have stop : other.blurred.stop = s.blurred.stop := congrArg State.stop same
      change other.app = s.app.withCq other.app.uring.cq at app
      change other.openFds = s.openFds at openFds
      change other.stop = s.stop at stop
      rw [State.retold, ← app, ← openFds, ← stop]
    · exact congrArg (fun t : State => t.app.uring.cq) same
    · exact congrArg (fun t : State => t.handled) same
  · rintro ⟨cq, handled, file, written, rfl, queue, done⟩
    change State.mk _ _ _ _ _ _ = _
    rw [State.blurred, ← queue, ← done]
    rfl

/-- A step of the program goes on alike in states that look alike. -/
private theorem State.proceed_retold {result : Except Stop Appctx} {file : List Char}
    {written : List (List Char)} (kept : ∀ app, result = .ok app → app.uring.cq = s.app.uring.cq)
    (queue : cq.map Completion.blurred = s.app.uring.cq.map Completion.blurred)
    (done : handled.map Completion.blurred = s.handled.map Completion.blurred) :
    ((s.retold cq handled file written).proceed (result.map (·.withCq cq))).blurred =
      (s.proceed result).blurred := by
  apply blurred_eq_iff.mpr
  cases result with
  | error stop => exact ⟨cq, handled, file, written, rfl, queue, done⟩
  | ok app => exact ⟨cq, handled, file, written, rfl, kept app rfl ▸ queue, done⟩

/-- A delivery may end with any result. -/
theorem delivered {index : ℕ} {outcome : Outcome} {sqe : Sqe}
    (found : s.app.uring.live[index]? = some sqe) (delivery : sqe.request.isDelivery = true)
    (completed : s.complete? index outcome = some next) :
    (∃ res file written, next =
      { s.post index ⟨⟨sqe.userData, res, cqeFlags none outcome.more⟩, sqe, none, outcome.more⟩ with
        file := file
        written := written }) ∧
    ∀ res, State.endsWith sqe.request res outcome.more = true := by
  simp only [State.complete?, found, bind, Option.bind_some] at completed
  split at completed
  · next request => simp [request, Request.isDelivery] at delivery
  · next request => simp [request, Request.isDelivery] at delivery
  · next request =>
    unfold State.write? at completed
    dsimp only at completed
    split at completed
    · cases completed
      exact ⟨⟨_, _, _, rfl⟩, fun res => by rw [request]; rfl⟩
    · cases completed
  · next request outcome res more =>
    split at completed
    · next allowed =>
      cases completed
      refine ⟨⟨res, s.file, s.written, rfl⟩, fun other => ?_⟩
      cases asked : sqe.request with
      | multishotAccept _ => simp [asked, Request.isDelivery] at delivery
      | recvmsgMultishot _ _ => simp [asked, Request.isDelivery] at delivery
      | sendZc _ _ => rfl
      | writeFixed _ _ _ _ _ =>
        rw [asked] at allowed
        exact allowed
    · cases completed
  · cases completed

/-- What is no delivery completes alike, whatever the other completions say. -/
private theorem completed_retold {index : ℕ} {outcome : Outcome} {sqe : Sqe} {file : List Char}
    {written : List (List Char)} (found : s.app.uring.live[index]? = some sqe)
    (other : sqe.request.isDelivery = false) (completed : s.complete? index outcome = some next) :
    ∃ c, next.app.uring.cq = s.app.uring.cq ++ [c] ∧ next.handled = s.handled ∧
      (s.retold cq handled file written).complete? index outcome =
        some (next.retold (cq ++ [c]) handled file written) := by
  have live : (s.retold cq handled file written).app.uring.live[index]? = some sqe := found
  simp only [State.complete?, found, live, bind, Option.bind_some] at completed ⊢
  split at completed
  · unfold State.accept? at *
    split at completed
    · next allowed =>
      cases completed
      exact ⟨_, rfl, rfl, if_pos allowed⟩
    · cases completed
  · simp only [State.receive?, bind, Option.bind_eq_some_iff, Prod.exists] at completed
    obtain ⟨ringIndex, known, buf, br, taken, received⟩ := completed
    split_ifs at received with fits
    cases received
    refine ⟨_, rfl, rfl, ?_⟩
    simp only [State.receive?, bind, Option.bind_eq_some_iff, Prod.exists]
    exact ⟨ringIndex, known, buf, br, taken, if_pos fits⟩
  · next request => simp [request, Request.isDelivery] at other
  · split at completed
    · next allowed =>
      cases completed
      exact ⟨_, rfl, rfl, if_pos allowed⟩
    · cases completed
  · cases completed

private theorem complete?_overruled {index : ℕ} {outcome : Outcome} {result : State → ℕ → ℤ}
    (running : s.stop = none) (alike : other.blurred = s.blurred)
    (completed : s.complete? index outcome = some next) :
    ∃ after, step? cfg other (other.overruled result (.complete index outcome)) = some after ∧
      after.blurred = next.blurred := by
  obtain ⟨cq, handled, file, written, rfl, queue, done⟩ := State.blurred_eq_iff.mp alike
  obtain ⟨sqe, found, -⟩ := Option.bind_eq_some_iff.mp completed
  generalize same : s.retold cq handled file written = other
  have live : other.app.uring.live[index]? = some sqe := same ▸ found
  have alive : ¬ other.stop.isSome = true := by rw [← same]; simpa [State.retold] using running
  simp only [State.overruled, live, Option.any_some, step?, if_neg alive]
  cases delivery : sqe.request.isDelivery with
  | true =>
    obtain ⟨⟨res, stored, lines, rfl⟩, ends⟩ := delivered found delivery completed
    let d : Completion :=
      ⟨⟨sqe.userData, result other index, cqeFlags none outcome.more⟩, sqe, none, outcome.more⟩
    refine ⟨other.post index d, ?_, ?_⟩
    · cases request : sqe.request with
      | multishotAccept _ => simp [request, Request.isDelivery] at delivery
      | recvmsgMultishot _ _ => simp [request, Request.isDelivery] at delivery
      | sendZc _ _ => simp [State.complete?, live, request, State.endsWith, d]
      | writeFixed _ _ _ _ _ =>
        have last := ends (result other index)
        rw [request] at last
        simp [State.complete?, live, request, last, d]
    · subst same
      refine State.blurred_eq_iff.mpr ⟨cq ++ [d], handled, file, written, rfl, ?_, done⟩
      change (cq ++ [d]).map _ = (s.app.uring.cq ++ [_]).map _
      rw [List.map_append, List.map_append, queue]
      simp [Completion.blurred, delivery, d]
  | false =>
    obtain ⟨c, posted, kept, completed⟩ := completed_retold found delivery completed
    subst same
    refine ⟨_, completed, State.blurred_eq_iff.mpr ⟨_, _, _, _, rfl, ?_, kept ▸ done⟩⟩
    rw [posted, List.map_append, List.map_append, queue]

private theorem mainAccept_cq {self app : Appctx} {socketfd : ℤ} {answers : Answers}
    (queued : mainAccept socketfd self answers = .ok app) : app.uring.cq = self.uring.cq := by
  obtain ⟨slot, found, done⟩ := bind_ok_iff.mp queued
  cases done
  have same := ioUringGetSqe_eq_some_iff.mp (assertNotNull_ok_iff.mp found)
  exact congrArg (·.cq) same

private theorem mainSubmit_cq {self app : Appctx} {answers : Answers}
    (submitted : mainSubmit self answers = .ok app) : app.uring.cq = self.uring.cq := by
  obtain ⟨_, -, done⟩ := bind_ok_iff.mp submitted
  cases done
  rfl

private theorem iterate_retold {index : ℕ} {answers : Answers} {file : List Char} {written : List (List Char)}
    (requested : Requested s.app.uring s.handled) (found : s.app.uring.cq[index]? = some c)
    (same : d.blurred = c.blurred)
    (queue : cq.map Completion.blurred = s.app.uring.cq.map Completion.blurred)
    (done : handled.map Completion.blurred = s.handled.map Completion.blurred) :
    ((s.retold cq handled file written).iterate index d answers).blurred =
      (s.iterate index c answers).blurred := by
  obtain ⟨origin, genuine⟩ := requested.posted c (mem_posted_of_cq found)
  have tagged := requested.tagged _ origin
  have reads : runEventLoopIteration s.app index d.cqe answers =
      runEventLoopIteration s.app index c.cqe answers := by
    simp only [runEventLoopIteration, dispatch_blurred same genuine tagged]
  have alike : runEventLoopIteration (s.retold cq handled file written).app index d.cqe answers =
      (runEventLoopIteration s.app index c.cqe answers).map (·.withCq (cq.eraseIdx index)) :=
    reads ▸ runEventLoopIteration_withCq index d.cqe
  apply State.blurred_eq_iff.mpr
  unfold State.iterate
  rw [alike]
  cases iterated : runEventLoopIteration s.app index c.cqe answers with
  | error stop => exact ⟨cq, handled, file, written, rfl, queue, done⟩
  | ok app =>
    obtain ⟨-, -, branch, dispatched, rfl⟩ := runEventLoopIteration_ok_iff.mp iterated
    have kept := (handled_of_dispatch genuine tagged dispatched).cq
    refine ⟨cq.eraseIdx index, handled ++ [d], file, written, rfl, ?_, ?_⟩
    · change _ = (branch.uring.cq.eraseIdx index).map _
      rw [kept, ← List.eraseIdx_map, ← List.eraseIdx_map, queue]
    · change _ = (s.handled ++ [c]).map _
      rw [List.map_append, List.map_append, done, List.map_singleton, List.map_singleton, same]

/-- A step is taken in every state that looks alike, whatever becomes of the deliveries. -/
theorem step?_overruled {event : Event} {result : State → ℕ → ℤ} (reachable : Reachable cfg s)
    (alike : other.blurred = s.blurred) (stepped : step? cfg s event = some next) :
    ∃ after, step? cfg other (other.overruled result event) = some after ∧
      after.blurred = next.blurred := by
  have running := (step_of_step? reachable.requested stepped).1
  have alive : ¬ s.stop.isSome = true := by simp [running]
  simp only [step?, if_neg alive] at stepped
  obtain ⟨cq, handled, file, written, rfl, queue, done⟩ := State.blurred_eq_iff.mp alike
  cases event with
  | complete index outcome => exact complete?_overruled running alike stepped
  | mainAccept answers =>
    cases stepped
    refine ⟨_, if_neg alive, ?_⟩
    have queued := @mainAccept_withCq s.app cq answers cfg.setup.socketfd
    exact queued ▸ State.proceed_retold (fun app accepted => mainAccept_cq accepted) queue done
  | mainLog level fmt answers =>
    cases stepped
    refine ⟨_, if_neg alive, ?_⟩
    have logged := @logEvent_withCq cq answers s.app level (.text fmt)
    exact logged ▸ State.proceed_retold (fun app log => logEvent_cq log) queue done
  | mainSubmit answers =>
    cases stepped
    refine ⟨_, if_neg alive, ?_⟩
    have submitted := @mainSubmit_withCq s.app cq answers
    exact submitted ▸ State.proceed_retold (fun app done => mainSubmit_cq done) queue done
  | poll count =>
    cases stepped
    exact ⟨_, if_neg alive, State.blurred_eq_iff.mpr ⟨cq, handled, file, written, rfl, queue, done⟩⟩
  | iterate index answers =>
    obtain ⟨c, found, rfl⟩ := Option.map_eq_some_iff.mp stepped
    have place : (cq[index]?).map Completion.blurred = some c.blurred := by
      rw [← List.getElem?_map, queue, List.getElem?_map, found]
      rfl
    obtain ⟨d, waiting, same⟩ := Option.map_eq_some_iff.mp place
    refine ⟨_, (if_neg alive).trans (Option.map_eq_some_iff.mpr ⟨d, waiting, rfl⟩), ?_⟩
    exact iterate_retold reachable.requested found same queue done

end Blurred

/-- Whatever replies and lines end with, all events of a run take place, and lead to the same state except
for these results and what was stored of the lines. -/
theorem deliveries_unnoticed {cfg : Config} {first s : State} {events : List Event}
    (result : State → ℕ → ℤ) (start : State.initial cfg = .ok first)
    (run : run? (step? cfg) first events = some s) :
    ∃ other, run? (fun t event => step? cfg t (t.overruled result event)) first events = some other ∧
      other.blurred = s.blurred := by
  have step (s other : State) (event : Event) (next : State)
      (alike : Reachable cfg s ∧ other.blurred = s.blurred) (stepped : step? cfg s event = some next) :
      ∃ after, step? cfg other (other.overruled result event) = some after ∧
        Reachable cfg next ∧ after.blurred = next.blurred := by
    obtain ⟨after, taken, same⟩ := step?_overruled alike.1 alike.2 stepped
    exact ⟨after, taken, alike.1.step stepped, same⟩
  obtain ⟨other, overruled, -, same⟩ := run?_followed step ⟨.initial start, rfl⟩ run
  exact ⟨other, overruled, same⟩

/-- A connection sends a message; the first line, the reply and the line about the message arrive. -/
def arriving : List Event :=
  calmStart ++ [.complete 1 .written, .iterate 0 calm, .complete 0 (.accepted 5 true), .iterate 0 calm,
    .poll 2, .complete 4 (.received ['a'] true), .iterate 0 calm, .poll 2,
    .complete 7 (.ended 14 false), .iterate 0 calm, .complete 6 .written, .iterate 0 calm]

/-- With error 5 in place of each of these results, nothing was ever written. -/
theorem deliveries_unnoticed_lost : ∃ first s other, State.initial calmConfig = .ok first ∧
    run? (step? calmConfig) first arriving = some s ∧
    run? (fun t event => step? calmConfig t (t.overruled (fun _ _ => -5) event)) first arriving =
      some other ∧ s.written.length = 2 ∧ other.written = [] ∧ other.blurred = s.blurred := by
  have passed : (State.initial calmConfig).toOption.any (fun first =>
      (run? (step? calmConfig) first arriving).any fun s =>
      (run? (fun t event => step? calmConfig t (t.overruled (fun _ _ => -5) event)) first arriving).any
        fun other => s.written.length = 2 ∧ other.written = []) = true := by decide +kernel
  obtain ⟨first, start, holds⟩ := (Option.any_eq_true ..).mp passed
  obtain ⟨s, run, holds⟩ := (Option.any_eq_true ..).mp holds
  obtain ⟨lost, overruled, holds⟩ := (Option.any_eq_true ..).mp holds
  obtain ⟨lines, none⟩ := of_decide_eq_true holds
  have started := toOption_eq_some_iff.mp start
  obtain ⟨other, same, alike⟩ := deliveries_unnoticed (fun _ _ => -5) started run
  obtain rfl : lost = other := Option.some.inj (overruled.symm.trans same)
  exact ⟨first, s, lost, started, run, overruled, lines, none, alike⟩

end UringServer
