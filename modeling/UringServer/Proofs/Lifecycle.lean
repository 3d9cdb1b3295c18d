import UringServer.Proofs.Steps

/-! # Lifecycle of the multishot requests

Every request ever queued is armed or was ended by a completion without `IORING_CQE_F_MORE`,
exactly once. The program queues one accept at start-up and one receive for each connection it
handles, never a second one, and it closes nothing. So a multishot request is armed until the
kernel ends it and stays unarmed from then on.
-/

namespace UringServer

open Fallible Replay

namespace State

/-- The requests that the kernel ended, one for each completion without `IORING_CQE_F_MORE`. -/
def ended (s : State) : List Sqe :=
  ((s.app.uring.cq ++ s.handled).filter (!·.more)).map (·.sqe)

/-- How often a request is queued or live. -/
def armedFor (s : State) (request : Request) : ℕ := (s.app.uring.armed.map (·.request)).count request

/-- How often a request was ended. -/
def endedFor (s : State) (request : Request) : ℕ := (s.ended.map (·.request)).count request

/-- Every request queued is armed or ended. -/
def Accounted (s : State) : Prop := (s.app.uring.armed ++ s.ended).Perm s.app.uring.sqes

/-- Where no completion is posted or handled, what ended before is what ended. -/
private theorem Accounted.of_cq (s : State) {next : State} (cq : next.app.uring.cq = s.app.uring.cq)
    (handled : next.handled = s.handled)
    (accounted : (next.app.uring.armed ++ s.ended).Perm next.app.uring.sqes) : next.Accounted := by
  rw [Accounted, ended, cq, handled]
  exact accounted

theorem Accounted.count {s : State} (accounted : s.Accounted) (request : Request) :
    s.armedFor request + s.endedFor request = (s.app.uring.sqes.map (·.request)).count request := by
  rw [armedFor, endedFor, ← List.count_append, ← List.map_append]
  exact (accounted.map _).count_eq request

end State

/-- A handled completion moves from the queue to the handled ones. -/
private theorem seen_perm {entries handled : List Completion} {index : ℕ} {c : Completion}
    (found : entries[index]? = some c) :
    (entries.eraseIdx index ++ (handled ++ [c])).Perm (entries ++ handled) := by
  obtain ⟨before, after, rfl, erased⟩ := eraseIdx_split found
  rw [erased, ← List.append_assoc]
  refine (List.perm_append_singleton c _).trans ?_
  simp only [List.append_assoc]
  exact List.perm_middle.symm

section Accounted

variable {rest : List Sqe} {slot : SqeSlot} {ring : IoUring}

/-- Queueing arms what it queues. -/
private theorem store_accounted (sqe : Sqe) (accounted : (slot.ring.armed ++ rest).Perm slot.ring.sqes) :
    ((slot.store sqe).armed ++ rest).Perm (slot.store sqe).sqes := by
  refine ((IoUring.store_armed slot sqe).append_right rest).trans ?_
  exact (accounted.cons sqe).trans (List.perm_append_singleton sqe _).symm

private theorem poll_accounted (count : ℕ) (accounted : (ring.armed ++ rest).Perm ring.sqes) :
    ((ring.poll count).armed ++ rest).Perm (ring.poll count).sqes :=
  ((ring.poll_armed count).append_right rest).trans accounted

private theorem logEvent_accounted {level : LogLevel} {self next : Appctx} {args : LogArgs}
    {answers : Answers} (log : logEvent level self args answers = .ok next)
    (accounted : (self.uring.armed ++ rest).Perm self.uring.sqes) :
    (next.uring.armed ++ rest).Perm next.uring.sqes := by
  obtain ⟨node, slot, ring, same⟩ := logEvent_uring log
  rw [same]
  rw [← ring] at accounted
  exact store_accounted _ accounted

theorem Handled.accounted {self branch : Appctx} {c : Completion} {answers : Answers}
    (step : Handled self c answers branch) (accounted : (self.uring.armed ++ rest).Perm self.uring.sqes) :
    (branch.uring.armed ++ rest).Perm branch.uring.sqes :=
  @Handled.preserves _ _ _ _ (fun ring => (ring.armed ++ rest).Perm ring.sqes) step
    (fun _ sqe => store_accounted sqe) (fun _ count => poll_accounted count) accounted

end Accounted

/-- Posting ends the request of a last completion and no other. -/
private theorem post_accounted {s next : State} {index : ℕ} {c : Completion} (accounted : s.Accounted)
    (found : s.app.uring.live[index]? = some c.sqe) (uring : next.app.uring = s.app.uring.post index c)
    (handled : next.handled = s.handled) : next.Accounted := by
  have armed := @IoUring.post_armed s.app.uring index c c.sqe found
  have ended : next.ended.Perm ((if c.more then [] else [c.sqe]) ++ s.ended) := by
    have moved : (s.app.uring.cq ++ [c] ++ s.handled).Perm (c :: (s.app.uring.cq ++ s.handled)) := by
      rw [List.append_assoc]
      exact List.perm_middle
    rw [State.ended, uring, handled]
    refine ((moved.filter _).map _).trans ?_
    rw [List.filter_cons]
    cases last : c.more <;> simp [State.ended]
  have same : (next.app.uring.armed ++ next.ended).Perm (s.app.uring.armed ++ s.ended) := by
    rw [uring]
    refine (ended.append_left _).trans ?_
    rw [← List.append_assoc]
    exact (List.perm_append_comm.trans armed).append_right _
  refine same.trans (accounted.trans ?_)
  rw [uring]
  exact .refl _

theorem Step.accounted {cfg : Config} {s next : State} {event : Event} (step : Step cfg s event next)
    (accounted : s.Accounted) : next.Accounted := by
  cases step with
  | stops _ stop => exact accounted
  | @mainAccept _ slot ring =>
    have here : (slot.ring.armed ++ s.ended).Perm slot.ring.sqes := ring ▸ accounted
    refine .of_cq s ?_ rfl (store_accounted _ here)
    rw [← ring]
    rfl
  | mainLog log => exact .of_cq s (logEvent_cq log) rfl (logEvent_accounted log accounted)
  | mainSubmit => exact accounted
  | poll => exact poll_accounted _ accounted
  | complete found posted =>
    obtain ⟨c, rfl, -, handled, uring⟩ := posted.genuine
    exact post_accounted accounted found uring handled
  | @iterate index answers c branch found handled =>
    have here := handled.accounted accounted
    have ended : State.ended { s with app := branch.finish index, handled := s.handled ++ [c] } =
        ((s.app.uring.cq.eraseIdx index ++ (s.handled ++ [c])).filter (!·.more)).map (·.sqe) := by
      rw [← handled.cq]
      rfl
    have same := ((@seen_perm _ s.handled _ _ found).filter (!·.more)).map (·.sqe)
    rw [State.Accounted, ended]
    exact (same.append_left _).trans here

theorem Reachable.accounted {cfg : Config} {s : State} (reachable : Reachable cfg s) : s.Accounted := by
  refine reachable.invariant ?_ fun s event next _ accounted step => step.accounted accounted
  intro first initial
  rw [State.Accounted, State.ended, initial.uring, initial.handled]
  exact .refl _

/-- The connection that an accept completion delivers, if it succeeded. -/
def Completion.connected? (c : Completion) : Option ℤ :=
  match c.sqe.request with
  | .multishotAccept _ => if 0 ≤ c.cqe.res then some c.cqe.res else none
  | _ => none

/-- Accepted descriptors are distinct and stay open. -/
structure Connections (s : State) : Prop where
  distinct : ((s.app.uring.cq ++ s.handled).filterMap Completion.connected?).Nodup
  opened : ∀ fd ∈ (s.app.uring.cq ++ s.handled).filterMap Completion.connected?, fd ∈ s.openFds

theorem Connections.perm {s next : State} (connections : Connections s)
    (same : (next.app.uring.cq ++ next.handled).Perm (s.app.uring.cq ++ s.handled))
    (openFds : next.openFds = s.openFds) : Connections next := by
  have fds := same.filterMap Completion.connected?
  refine ⟨fds.nodup_iff.mpr connections.distinct, ?_⟩
  intro fd member
  rw [openFds]
  exact connections.opened fd (fds.mem_iff.mp member)

/-- A completion posted in front of the handled ones. -/
theorem Connections.post {s next : State} {c : Completion} (connections : Connections s)
    (cq : next.app.uring.cq = s.app.uring.cq ++ [c]) (handled : next.handled = s.handled)
    (grows : ∀ fd ∈ s.openFds, fd ∈ next.openFds)
    (fresh : ∀ fd, c.connected? = some fd → fd ∉ s.openFds ∧ fd ∈ next.openFds) :
    Connections next := by
  have moved : (next.app.uring.cq ++ next.handled).Perm (c :: (s.app.uring.cq ++ s.handled)) := by
    rw [cq, handled, List.append_assoc]
    exact List.perm_middle
  have fds := moved.filterMap Completion.connected?
  cases connected : c.connected? with
  | none =>
    rw [List.filterMap_cons_none connected] at fds
    exact ⟨fds.nodup_iff.mpr connections.distinct,
      fun fd member => grows fd (connections.opened fd (fds.mem_iff.mp member))⟩
  | some fd =>
    obtain ⟨closed, opened⟩ := fresh fd connected
    rw [List.filterMap_cons_some connected] at fds
    refine ⟨fds.nodup_iff.mpr (List.nodup_cons.mpr ⟨?_, connections.distinct⟩), ?_⟩
    · exact fun member => closed (connections.opened fd member)
    · intro other member
      rcases List.mem_cons.mp (fds.mem_iff.mp member) with rfl | old
      · exact opened
      · exact grows other (connections.opened other old)

theorem Posted.connections {s next : State} {index : ℕ} {sqe : Sqe}
    (posted : Posted s index sqe next) (connections : Connections s) : Connections next := by
  cases posted with
  | @accepted listenfd fd more request bounds fresh =>
    refine connections.post rfl rfl (fun _ => List.mem_cons_of_mem _) ?_
    intro other connected
    simp only [Completion.connected?, request, bounds.1, if_true, Option.some.injEq] at connected
    subst connected
    exact ⟨fresh, List.mem_cons_self ..⟩
  | received request found taken fits =>
    refine connections.post rfl rfl (fun _ => id) ?_
    intro other connected
    simp [Completion.connected?, request] at connected
  | written request =>
    refine connections.post rfl rfl (fun _ => id) ?_
    intro other connected
    simp [Completion.connected?, request] at connected
  | @ended res more allowed =>
    refine connections.post rfl rfl (fun _ => id) ?_
    intro other connected
    simp only [Completion.connected?] at connected
    generalize sqe.request = request at allowed connected
    cases request with
    | multishotAccept fd =>
      have failed : res < 0 := by simpa [State.endsWith] using allowed
      simp [not_le.mpr failed] at connected
    | _ => cases connected

theorem Step.connections {cfg : Config} {s next : State} {event : Event} (step : Step cfg s event next)
    (connections : Connections s) : Connections next := by
  cases step with
  | stops _ stop => exact ⟨connections.distinct, connections.opened⟩
  | mainAccept ring =>
    refine connections.perm ?_ rfl
    rw [← ring]
    exact .refl _
  | mainLog log =>
    refine connections.perm ?_ rfl
    rw [logEvent_cq log]
  | mainSubmit => exact ⟨connections.distinct, connections.opened⟩
  | poll => exact ⟨connections.distinct, connections.opened⟩
  | complete found posted => exact posted.connections connections
  | iterate found handled =>
    refine connections.perm ?_ rfl
    have moved := @seen_perm _ s.handled _ _ found
    rw [← handled.cq] at moved ⊢
    exact moved

theorem Reachable.connections {cfg : Config} {s : State} (reachable : Reachable cfg s) :
    Connections s := by
  refine reachable.invariant ?_ fun s event next _ connections step => step.connections connections
  intro first initial
  refine ⟨?_, ?_⟩
  · simp [initial.uring, initial.handled, ioUringQueueInit]
  · simp [initial.uring, initial.handled, ioUringQueueInit]

/-- The requests that stay live until they are ended. -/
def Request.isMultishot : Request → Bool
  | .multishotAccept _ => true
  | .recvmsgMultishot _ _ => true
  | .sendZc _ _ => false
  | .writeFixed _ _ _ _ _ => false

/-- The receive that is queued for a connection. -/
def receiveOn (fd : ℤ) : Request := .recvmsgMultishot fd bufringsConn

/-- Besides the given accepts, the multishot requests queued so far are one receive for each
connection handled, in order. -/
def Subscribed (accepts : List Request) (s : State) : Prop :=
  (s.app.uring.sqes.map (·.request)).filter Request.isMultishot =
    accepts ++ (s.handled.filterMap Completion.connected?).map receiveOn

theorem Handled.subscriptions {self branch : Appctx} {c : Completion} {answers : Answers}
    (step : Handled self c answers branch) (node : ℕ) :
    ((self.queuedFor c answers node).map (·.request)).filter Request.isMultishot =
      c.connected?.toList.map receiveOn := by
  unfold Appctx.queuedFor Completion.connected?
  cases step with
  | write request => simp [request]
  | accept request positive ring log =>
    simp only [request, if_pos positive]
    rfl
  | recvmsg request filled log ring =>
    simp only [request]
    rfl
  | send request => simp [request]

theorem Subscribed.add {accepts : List Request} {s next : State} (subscribed : Subscribed accepts s)
    (added : List Sqe) (sqes : next.app.uring.sqes = s.app.uring.sqes ++ added)
    (multishots : (s.handled.filterMap Completion.connected?).map receiveOn ++
      (added.map (·.request)).filter Request.isMultishot =
      (next.handled.filterMap Completion.connected?).map receiveOn) : Subscribed accepts next := by
  rw [Subscribed, sqes, List.map_append, List.filter_append, subscribed, List.append_assoc, multishots]

/-- After start-up nothing subscribes but the accept handler. -/
theorem Step.subscribed {cfg : Config} {accepts : List Request} {s next : State} {event : Event}
    (step : Step cfg s event next) (later : ∀ answers, event ≠ .mainAccept answers)
    (subscribed : Subscribed accepts s) : Subscribed accepts next := by
  cases step with
  | stops _ stop => exact subscribed
  | @mainAccept answers slot ring => exact absurd rfl (later answers)
  | mainLog log =>
    obtain ⟨node, sqes⟩ := logEvent_sqes log
    exact subscribed.add _ sqes (List.append_nil _)
  | mainSubmit => exact subscribed
  | poll => exact subscribed
  | complete found posted =>
    obtain ⟨c, rfl, -, handled, uring⟩ := posted.genuine
    rw [Subscribed, uring, handled]
    exact subscribed
  | @iterate index answers c branch found handled =>
    obtain ⟨node, sqes⟩ := handled.queued
    refine subscribed.add _ sqes ?_
    rw [handled.subscriptions, List.filterMap_append, List.map_append]
    cases connected : c.connected? <;> simp [connected]

/-- `main` queues one accept. -/
theorem ServerRun.subscribed {cfg : Config} {answers : Fin 6 → Answers} {events : List Event}
    {s : State} (run : ServerRun cfg answers events s) :
    Subscribed [.multishotAccept cfg.setup.socketfd] s := by
  obtain ⟨first, start, reached⟩ := run.reached
  have initial := initial_spec start
  have begins := Reachable.initial start
  obtain ⟨next, stepped, rest⟩ := run?_cons_iff.mp reached
  have armed : Subscribed [.multishotAccept cfg.setup.socketfd] next := by
    obtain ⟨-, accepted⟩ := step_of_step? begins.requested stepped
    cases accepted with
    | stops _ stop =>
      -- A process that ended takes no further step, but `main` took five more.
      obtain ⟨other, again, -⟩ := run?_cons_iff.mp rest
      have running := running_of_step? again
      cases running
    | @mainAccept _ slot ring =>
      have empty : slot.ring.sqes = [] := by rw [ring, initial.uring]; rfl
      have queued : (slot.store (acceptSqe cfg.setup.socketfd (answers 0))).sqes =
          [acceptSqe cfg.setup.socketfd (answers 0)] := by
        change slot.ring.sqes ++ _ = _
        rw [empty]
        rfl
      change ((slot.store (acceptSqe cfg.setup.socketfd (answers 0))).sqes.map (·.request)).filter _ =
        _ ++ (first.handled.filterMap Completion.connected?).map receiveOn
      rw [queued, initial.handled]
      rfl
  have later (event : Event) (member : event ∈ (mainEvents answers ++ events).tail) :
      ∀ answers, event ≠ .mainAccept answers := by
    rintro other rfl
    rcases List.mem_append.mp member with startup | looping
    · simp at startup
    · have active := run.inLoop _ looping
      cases active
  exact (begins.step stepped).preserves rest later armed
    fun s event next _ permitted subscribed step => step.subscribed permitted subscribed

/-- The multishot requests of the server: the accept is armed until it is ended, the receive of a
connection is armed from the handling of its accept until it is ended, and descriptors stay open. -/
structure ArmedUntilEnded (cfg : Config) (s : State) : Prop where
  accept : s.armedFor (.multishotAccept cfg.setup.socketfd) +
    s.endedFor (.multishotAccept cfg.setup.socketfd) = 1
  receive : ∀ fd, s.armedFor (receiveOn fd) + s.endedFor (receiveOn fd) =
    if fd ∈ s.handled.filterMap Completion.connected? then 1 else 0
  opened : ∀ fd ∈ (s.app.uring.cq ++ s.handled).filterMap Completion.connected?, fd ∈ s.openFds

/-- In every state of every run of the server each multishot request is armed exactly until the
kernel ends it: nothing is armed twice, armed again or closed. -/
theorem multishot_armed_until_ended {cfg : Config} {answers : Fin 6 → Answers} {events : List Event}
    {s : State} (run : ServerRun cfg answers events s) : ArmedUntilEnded cfg s := by
  have subscribed := run.subscribed
  obtain ⟨first, start, reached⟩ := run.reached
  have reachable : Reachable cfg s := ⟨first, _, start, reached⟩
  have connections := reachable.connections
  have count (request : Request) (multishot : request.isMultishot = true) :
      s.armedFor request + s.endedFor request =
        ([.multishotAccept cfg.setup.socketfd].count request +
          ((s.handled.filterMap Completion.connected?).map receiveOn).count request) := by
    rw [reachable.accounted.count, ← List.count_filter multishot, subscribed, List.count_append]
  have distinct : (s.handled.filterMap Completion.connected?).Nodup := by
    have both := connections.distinct
    rw [List.filterMap_append] at both
    exact both.of_append_right
  refine ⟨?_, ?_, connections.opened⟩
  · rw [count _ rfl, List.count_singleton_self, Nat.add_eq_left, List.count_eq_zero]
    intro member
    obtain ⟨fd, -, same⟩ := List.mem_map.mp member
    cases same
  · intro fd
    have injective : Function.Injective receiveOn := fun a b same => (Request.recvmsgMultishot.inj same).1
    rw [count (receiveOn fd) rfl, List.count_map_of_injective _ _ injective, distinct.count]
    simp [receiveOn]

/-- A connection whose accept was the last of its request, and which its peer then closed. -/
def lastConnection : List Event :=
  [.poll 5, .complete 0 (.accepted 5 false), .iterate 0 calm, .poll 2,
    .complete 4 (.received [] false), .iterate 0 calm]

theorem multishot_armed_until_ended_last_connection :
    ∃ s, ServerRun calmConfig (fun _ => calm) lastConnection s ∧
      s.handled.filterMap Completion.connected? = [5] ∧ ArmedUntilEnded calmConfig s := by
  have passed : (replay? calmConfig (mainEvents (fun _ => calm) ++ lastConnection)).any
      (fun s => s.handled.filterMap Completion.connected? = [5]) = true := by decide +kernel
  obtain ⟨s, run, holds⟩ := exists_serverRun rfl passed
  exact ⟨s, run, of_decide_eq_true holds, multishot_armed_until_ended run⟩

/-- At the end of that iteration nothing is armed for the listening socket or the connection, and
the connection is still open. -/
theorem not_armed_last_connection : ∃ s, ServerRun calmConfig (fun _ => calm) lastConnection s ∧
    s.stop = none ∧ s.armedFor (.multishotAccept 3) = 0 ∧ s.armedFor (receiveOn 5) = 0 ∧
    5 ∈ s.openFds := by
  have passed : (replay? calmConfig (mainEvents (fun _ => calm) ++ lastConnection)).any
      (fun s => s.stop = none ∧ s.armedFor (.multishotAccept 3) = 0 ∧ s.armedFor (receiveOn 5) = 0 ∧
        5 ∈ s.openFds) = true := by decide +kernel
  obtain ⟨s, run, holds⟩ := exists_serverRun rfl passed
  exact ⟨s, run, of_decide_eq_true holds⟩

end UringServer
