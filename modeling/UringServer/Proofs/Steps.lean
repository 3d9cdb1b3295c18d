import UringServer.Proofs.Requests

/-! # One step of the machine

`Requested` says that every request in the queues is tagged and every completion genuine. It
holds of every reachable state, and under it `Step` lists what an event can do.
-/

namespace UringServer

open Fallible PositionalFile Replay

/-- Every request ever queued is tagged; live requests and completions stem from queued ones. -/
structure Requested (ring : IoUring) (handled : List Completion) : Prop where
  tagged : ∀ sqe ∈ ring.sqes, sqe.Tagged
  live : ∀ sqe ∈ ring.live, sqe ∈ ring.sqes
  posted : ∀ c ∈ ring.cq ++ handled, c.sqe ∈ ring.sqes ∧ c.Genuine

namespace Requested

variable {ring : IoUring} {handled : List Completion}

theorem store {slot : SqeSlot} {sqe : Sqe} (requested : Requested slot.ring handled)
    (tag : sqe.Tagged) : Requested (slot.store sqe) handled where
  tagged other member := by
    rcases List.mem_append.mp member with old | new
    · exact requested.tagged other old
    · exact List.mem_singleton.mp new ▸ tag
  live other member := List.mem_append_left _ (requested.live other member)
  posted c member :=
    ⟨List.mem_append_left _ (requested.posted c member).1, (requested.posted c member).2⟩

theorem poll (requested : Requested ring handled) (count : ℕ) :
    Requested (ring.poll count) handled where
  tagged := requested.tagged
  live sqe member := by
    rcases List.mem_append.mp member with old | moved
    · exact requested.live sqe old
    · exact List.mem_of_mem_drop (List.mem_of_mem_take moved)
  posted := requested.posted

theorem submit (requested : Requested ring handled) : Requested (ioUringSubmit ring) handled :=
  ⟨requested.tagged, requested.live, requested.posted⟩

theorem post (requested : Requested ring handled) {index : ℕ} {c : Completion}
    (found : ring.live[index]? = some c.sqe) (genuine : c.Genuine) :
    Requested (ring.post index c) handled where
  tagged := requested.tagged
  live sqe member := by
    apply requested.live
    simp only [IoUring.post] at member
    split at member
    · exact member
    · exact List.mem_of_mem_eraseIdx member
  posted other member := by
    have origin := requested.live c.sqe (List.mem_of_getElem? found)
    have places : other ∈ ring.cq ∨ other = c ∨ other ∈ handled := by
      simpa [IoUring.post, or_assoc] using member
    rcases places with old | rfl | done
    · exact requested.posted other (List.mem_append_left _ old)
    · exact ⟨origin, genuine⟩
    · exact requested.posted other (List.mem_append_right _ done)

theorem seen (requested : Requested ring handled) {index : ℕ} {c : Completion}
    (member : c ∈ ring.cq ++ handled) :
    Requested (ioUringCqeSeen ring index) (handled ++ [c]) where
  tagged := requested.tagged
  live := requested.live
  posted other otherMem := by
    have places : other ∈ ring.cq.eraseIdx index ∨ other ∈ handled ∨ other = c := by
      simpa [ioUringCqeSeen] using otherMem
    rcases places with old | done | rfl
    · exact requested.posted other (List.mem_append_left _ (List.mem_of_mem_eraseIdx old))
    · exact requested.posted other (List.mem_append_right _ done)
    · exact requested.posted other member

end Requested

/-- What one event does to a running server whose requests are in order. -/
inductive Step (cfg : Config) (s : State) : Event → State → Prop
  | stops (event : Event) (stop : Stop) : Step cfg s event { s with stop := some stop }
  | mainAccept {answers : Answers} {slot : SqeSlot} (ring : slot.ring = s.app.uring) :
      Step cfg s (.mainAccept answers)
        { s with app := { s.app with uring := slot.store (acceptSqe cfg.setup.socketfd answers) } }
  | mainLog {level : LogLevel} {fmt : List Char} {answers : Answers} {next : Appctx}
      (logged : logEvent level s.app (.text fmt) answers = .ok next) :
      Step cfg s (.mainLog level fmt answers) { s with app := next }
  | mainSubmit {answers : Answers} :
      Step cfg s (.mainSubmit answers) { s with app := { s.app with uring := ioUringSubmit s.app.uring } }
  | poll {count : ℕ} : Step cfg s (.poll count) { s with app := s.app.poll count }
  | complete {index : ℕ} {outcome : Outcome} {sqe : Sqe} {next : State}
      (found : s.app.uring.live[index]? = some sqe) (posted : Posted s index sqe next) :
      Step cfg s (.complete index outcome) next
  | iterate {index : ℕ} {answers : Answers} {c : Completion} {branch : Appctx}
      (found : s.app.uring.cq[index]? = some c) (handled : Handled s.app c answers branch) :
      Step cfg s (.iterate index answers)
        { s with app := branch.finish index, handled := s.handled ++ [c] }

theorem mem_posted_of_cq {s : State} {index : ℕ} {c : Completion}
    (found : s.app.uring.cq[index]? = some c) : c ∈ s.app.uring.cq ++ s.handled :=
  List.mem_append_left _ (List.mem_of_getElem? found)

/-- A queue splits at any of its entries. -/
theorem eraseIdx_split {α : Type} {entries : List α} {index : ℕ} {entry : α}
    (found : entries[index]? = some entry) :
    ∃ before after, entries = before ++ entry :: after ∧
      entries.eraseIdx index = before ++ after := by
  obtain ⟨bound, rfl⟩ := List.getElem?_eq_some_iff.mp found
  refine ⟨entries.take index, entries.drop (index + 1), ?_, List.eraseIdx_eq_take_drop_succ ..⟩
  rw [List.cons_getElem_drop_succ, List.take_append_drop]

private theorem proceed_step {cfg : Config} {s : State} {event : Event} {result : Except Stop Appctx}
    (succeeds : ∀ next, result = .ok next → Step cfg s event { s with app := next }) :
    Step cfg s event (s.proceed result) := by
  cases result with
  | ok next => exact succeeds next rfl
  | error stop => exact .stops event stop

/-- An event that the machine takes does one of the things that `Step` lists. -/
theorem step_of_step? {cfg : Config} {s next : State} {event : Event}
    (requested : Requested s.app.uring s.handled) (stepped : step? cfg s event = some next) :
    s.stop = none ∧ Step cfg s event next := by
  unfold step? at stepped
  split at stepped
  · cases stepped
  · next running =>
    refine ⟨by simpa using running, ?_⟩
    cases event with
    | mainAccept answers =>
      cases stepped
      apply proceed_step
      intro next taken
      obtain ⟨slot, found, done⟩ := bind_ok_iff.mp taken
      cases done
      exact .mainAccept (ioUringGetSqe_eq_some_iff.mp (assertNotNull_ok_iff.mp found))
    | mainLog level fmt answers =>
      cases stepped
      exact proceed_step fun next logged => .mainLog logged
    | mainSubmit answers =>
      cases stepped
      apply proceed_step
      intro next taken
      obtain ⟨_, -, done⟩ := bind_ok_iff.mp taken
      cases done
      exact .mainSubmit
    | poll count =>
      cases stepped
      exact .poll
    | complete index outcome =>
      obtain ⟨sqe, found, posted⟩ := posted_of_complete? stepped
      exact .complete found posted
    | iterate index answers =>
      obtain ⟨c, found, rfl⟩ := Option.map_eq_some_iff.mp stepped
      obtain ⟨origin, genuine⟩ := requested.posted c (mem_posted_of_cq found)
      unfold State.iterate
      split
      · next app ran =>
        obtain ⟨-, -, branch, dispatched, rfl⟩ := runEventLoopIteration_ok_iff.mp ran
        exact .iterate found (handled_of_dispatch genuine (requested.tagged _ origin) dispatched)
      · next stop _ => exact .stops _ stop

theorem Requested.logEvent {level : LogLevel} {self next : Appctx} {args : LogArgs}
    {answers : Answers} {handled : List Completion} (requested : Requested self.uring handled)
    (log : logEvent level self args answers = .ok next) : Requested next.uring handled := by
  obtain ⟨node, slot, ring, same⟩ := logEvent_uring log
  rw [same]
  rw [← ring] at requested
  exact requested.store (writeSqe_tagged ..)

theorem Handled.requested {self branch : Appctx} {c : Completion} {answers : Answers}
    {handled : List Completion} (step : Handled self c answers branch)
    (requested : Requested self.uring handled) : Requested branch.uring handled := by
  cases step with
  | write request => exact requested
  | accept request positive ring log =>
    rw [← ring] at requested
    exact ((requested.store (recvmsgSqe_tagged ..)).poll _).logEvent log
  | recvmsg request filled log ring =>
    have logged := (requested.logEvent log).poll answers.consumed
    exact Requested.store (ring ▸ logged) (sendSqe_tagged ..)
  | send request => exact requested

/-- Handlers touch the rings by queueing and by letting the polling thread move on, no other way. -/
theorem Handled.preserves {self branch : Appctx} {c : Completion} {answers : Answers}
    {property : IoUring → Prop} (step : Handled self c answers branch)
    (store : ∀ (slot : SqeSlot) (sqe : Sqe), property slot.ring → property (slot.store sqe))
    (poll : ∀ (ring : IoUring) (count : ℕ), property ring → property (ring.poll count))
    (holds : property self.uring) : property branch.uring := by
  cases step with
  | write request => exact holds
  | @accept listenfd first next request positive ring log =>
    obtain ⟨node, slot, logRing, same⟩ := logEvent_uring log
    rw [same]
    apply store
    rw [logRing]
    exact poll _ _ (store first _ (ring ▸ holds))
  | @recvmsg fd group buf logged second request filled log ring =>
    obtain ⟨node, slot, logRing, same⟩ := logEvent_uring log
    apply store
    rw [ring]
    apply poll
    change property logged.uring
    rw [same]
    exact store slot _ (logRing ▸ holds)
  | send request => exact holds

theorem Handled.cq {self branch : Appctx} {c : Completion} {answers : Answers}
    (step : Handled self c answers branch) : branch.uring.cq = self.uring.cq :=
  @Handled.preserves _ _ _ _ (fun ring => ring.cq = self.uring.cq) step
    (fun _ _ same => same) (fun _ _ same => same) rfl

/-- What the handler of a completion queues, its log line being printed to the buffer of `node`. -/
def Appctx.queuedFor (self : Appctx) (c : Completion) (answers : Answers) (node : ℕ) : List Sqe :=
  match c.sqe.request with
  | .multishotAccept _ => [recvmsgSqe c.cqe.res answers,
      self.writeSqe .debug (.newConnection (addrText (answers.getpeername c.cqe.res).2)) answers node]
  | .recvmsgMultishot _ _ => [self.writeSqe .debug (self.packetArgs c.cqe) answers node,
      sendSqe (userdataDecode c.cqe.userData) answers]
  | .sendZc _ _ => []
  | .writeFixed _ _ _ _ _ => []

theorem Handled.queued {self branch : Appctx} {c : Completion} {answers : Answers}
    (step : Handled self c answers branch) :
    ∃ node, branch.uring.sqes = self.uring.sqes ++ self.queuedFor c answers node := by
  cases step with
  | write request => exact ⟨0, by simp [Appctx.queuedFor, request]⟩
  | accept request positive ring log =>
    obtain ⟨node, sqes⟩ := logEvent_sqes log
    refine ⟨node, ?_⟩
    rw [sqes, Appctx.queuedFor, request, ← ring]
    exact List.append_assoc ..
  | @recvmsg fd group buf logged second request filled log ring =>
    obtain ⟨node, sqes⟩ := logEvent_sqes log
    have polled : second.ring.sqes = logged.uring.sqes := by rw [ring]; rfl
    refine ⟨node, ?_⟩
    change second.ring.sqes ++ [_] = _
    rw [polled, sqes, List.append_assoc, Appctx.queuedFor, request]
    rfl
  | send request => exact ⟨0, by simp [Appctx.queuedFor, request]⟩

/-- The kernel posts genuine completions only. -/
theorem Posted.genuine {s next : State} {index : ℕ} {sqe : Sqe} (posted : Posted s index sqe next) :
    ∃ c : Completion, c.sqe = sqe ∧ c.Genuine ∧ next.handled = s.handled ∧
      next.app.uring = s.app.uring.post index c := by
  cases posted with
  | accepted request bounds fresh =>
    refine ⟨_, rfl, ⟨rfl, rfl, by simp, ?_, ?_⟩, rfl, rfl⟩
    · intro _ fd group same
      rw [request] at same
      cases same
    · intro same
      rw [request] at same
      cases same
  | @received fd group ringIndex buf br payload more request found taken fits =>
    refine ⟨_, rfl, ⟨rfl, rfl, ?_, by simp, ?_⟩, rfl, rfl⟩
    · intro other same
      cases same
      refine ⟨⟨_, _, request⟩, ?_, Int.ofNat_le.mpr fits⟩
      have header : (State.recvmsgOut payload).length = recvmsgOutSize := rfl
      simp only [List.length_append, header]
      omega
    · intro same
      rw [request] at same
      cases same
  | written request =>
    refine ⟨_, rfl, ⟨rfl, rfl, by simp, ?_, fun _ => rfl⟩, rfl, rfl⟩
    intro _ fd group same
    rw [request] at same
    cases same
  | @ended res more allowed =>
    refine ⟨_, rfl, ⟨rfl, rfl, by simp, ?_, ?_⟩, rfl, rfl⟩
    · intro _ fd group same
      rw [same] at allowed
      simpa [State.endsWith] using allowed
    · intro same
      cases request : sqe.request <;> rw [request] at same allowed <;>
        simp_all [Request.opcode, State.endsWith]

theorem Step.requested {cfg : Config} {s next : State} {event : Event}
    (step : Step cfg s event next) (requested : Requested s.app.uring s.handled) :
    Requested next.app.uring next.handled := by
  cases step with
  | stops stop => exact requested
  | mainAccept ring =>
    rw [← ring] at requested
    exact requested.store (acceptSqe_tagged ..)
  | mainLog logged => exact requested.logEvent logged
  | mainSubmit => exact requested.submit
  | poll => exact requested.poll _
  | complete found posted =>
    obtain ⟨c, rfl, genuine, same, uring⟩ := posted.genuine
    rw [same, uring]
    exact requested.post found genuine
  | iterate found handled =>
    have member := mem_posted_of_cq found
    rw [← handled.cq] at member
    exact ((handled.requested requested).seen member).submit

/-- The state in which the events start, component by component. -/
structure Initial (cfg : Config) (s : State) : Prop where
  uring : s.app.uring = ioUringQueueInit
  bufpool : bufpoolInit cfg.setup.registerBuffers cfg.setup.iovecs cfg.setup.freebs loggingBufsize
    cfg.bufpoolSize = .ok s.app.bufpool
  bufrings : ∀ index, bufringInit index (cfg.setup.posixMemalign index)
    (cfg.setup.registerBufRing index) (cfg.setup.br index) (cfg.setup.bufs index)
    (cfg.bufringParams index) = .ok (s.app.bufrings index)
  socketfd : 0 ≤ cfg.setup.socketfd
  fmtAddr : s.app.fmtAddr = []
  log : s.app.log = []
  handled : s.handled = []
  file : s.file = []
  written : s.written = []
  stop : s.stop = none

theorem initial_spec {cfg : Config} {s : State} (start : State.initial cfg = .ok s) :
    Initial cfg s := by
  obtain ⟨app, setup, done⟩ := bind_ok_iff.mp start
  cases done
  simp only [mainSetup, bind_ok_iff, assertPositive_ok_iff, pure_ok_iff, exists_const] at setup
  obtain ⟨app, init, listening, -, -, -, rfl⟩ := setup
  simp only [appctxInit, bind_ok_iff, assertPositive_ok_iff, pure_ok_iff, exists_const] at init
  obtain ⟨-, bufpool, pool, conn, connRing, spare, spareRing, rfl⟩ := init
  refine ⟨rfl, pool, ?_, listening, rfl, rfl, rfl, rfl, rfl, rfl⟩
  exact Fin.forall_fin_two.mpr ⟨connRing, spareRing⟩

/-- The states that some tape of events leads to. -/
def Reachable (cfg : Config) (s : State) : Prop :=
  ∃ first events, State.initial cfg = .ok first ∧ run? (step? cfg) first events = some s

/-- A tape that leads from one reachable state leads to another. -/
theorem Reachable.trans {cfg : Config} {s next : State} {events : List Event}
    (reachable : Reachable cfg s) (run : run? (step? cfg) s events = some next) :
    Reachable cfg next := by
  obtain ⟨first, before, start, reached⟩ := reachable
  exact ⟨first, before ++ events, start, run?_append_iff.mpr ⟨s, reached, run⟩⟩

theorem Reachable.step {cfg : Config} {s next : State} {event : Event}
    (reachable : Reachable cfg s) (stepped : step? cfg s event = some next) : Reachable cfg next :=
  reachable.trans (run?_cons_iff.mpr ⟨next, stepped, run?_nil⟩)

theorem Reachable.requested {cfg : Config} {s : State} (reachable : Reachable cfg s) :
    Requested s.app.uring s.handled := by
  obtain ⟨first, events, start, run⟩ := reachable
  have step (s : State) (event : Event) (next : State) (requested : Requested s.app.uring s.handled)
      (stepped : step? cfg s event = some next) : Requested next.app.uring next.handled :=
    (step_of_step? requested stepped).2.requested requested
  have initial := initial_spec start
  have empty : Requested first.app.uring first.handled := by
    rw [initial.uring, initial.handled]
    exact ⟨by simp [ioUringQueueInit], by simp [ioUringQueueInit], by simp [ioUringQueueInit]⟩
  exact @run?_preserves _ _ _ _ _ _ (fun s => Requested s.app.uring s.handled) step empty run

theorem Reachable.initial {cfg : Config} {first : State} (start : State.initial cfg = .ok first) :
    Reachable cfg first := ⟨first, [], start, run?_nil⟩

/-- What the steps of permitted events preserve holds at the end of every run of such events. -/
theorem Reachable.preserves {cfg : Config} {permitted : Event → Prop} {property : State → Prop}
    {source s : State} {events : List Event} (reachable : Reachable cfg source)
    (run : run? (step? cfg) source events = some s) (tape : ∀ event ∈ events, permitted event)
    (start : property source) (step : ∀ s event next, Reachable cfg s → permitted event →
      property s → Step cfg s event next → property next) : property s := by
  have both (s : State) (event : Event) (next : State) (allowed : permitted event)
      (holds : Reachable cfg s ∧ property s) (stepped : step? cfg s event = some next) :
      Reachable cfg next ∧ property next := by
    have taken := (step_of_step? holds.1.requested stepped).2
    exact ⟨holds.1.step stepped, step s event next holds.1 allowed holds.2 taken⟩
  exact (run?_preserves_of both tape ⟨reachable, start⟩ run).2

/-- An invariant holds initially and survives every step from a reachable state. -/
theorem Reachable.invariant {cfg : Config} {s : State} {property : State → Prop}
    (reachable : Reachable cfg s) (initial : ∀ first, Initial cfg first → property first)
    (step : ∀ s event next, Reachable cfg s → property s → Step cfg s event next → property next) :
    property s := by
  obtain ⟨first, events, start, run⟩ := reachable
  refine @Reachable.preserves cfg (fun _ => True) property first s events (.initial start) run ?_ ?_ ?_
  · exact fun _ _ => trivial
  · exact initial first (initial_spec start)
  · exact fun s event next here _ holds taken => step s event next here holds taken

/-- The call that ends the process with `stop` when the event is taken. -/
def State.Ends (cfg : Config) (s : State) (stop : Stop) : Event → Prop
  | .mainAccept answers => mainAccept cfg.setup.socketfd s.app answers = .error stop
  | .mainLog level fmt answers => logEvent level s.app (.text fmt) answers = .error stop
  | .mainSubmit answers => mainSubmit s.app answers = .error stop
  | .poll _ => False
  | .complete _ _ => False
  | .iterate index answers => ∃ c, s.app.uring.cq[index]? = some c ∧
      runEventLoopIteration s.app index c.cqe answers = .error stop

theorem running_of_step? {cfg : Config} {s next : State} {event : Event}
    (stepped : step? cfg s event = some next) : s.stop = none := by
  unfold step? at stepped
  split at stepped
  · cases stepped
  · next running => simpa using running

private theorem proceed_stop_iff {s : State} {result : Except Stop Appctx} {stop : Stop}
    (running : s.stop = none) : (s.proceed result).stop = some stop ↔ result = .error stop := by
  cases result <;> simp [State.proceed, running]

/-- A step ends the process exactly when the call it makes does. -/
theorem stop_iff_ends {cfg : Config} {s next : State} {event : Event} {stop : Stop}
    (stepped : step? cfg s event = some next) : next.stop = some stop ↔ s.Ends cfg stop event := by
  have running := running_of_step? stepped
  have active : s.stop.isSome = false := by rw [running]; rfl
  unfold step? at stepped
  rw [if_neg (by simp [active])] at stepped
  cases event with
  | mainAccept answers => cases stepped; exact proceed_stop_iff running
  | mainLog level fmt answers => cases stepped; exact proceed_stop_iff running
  | mainSubmit answers => cases stepped; exact proceed_stop_iff running
  | poll count => cases stepped; simp [State.Ends, running]
  | complete index outcome =>
    obtain ⟨sqe, found, posted⟩ := posted_of_complete? stepped
    simp [State.Ends, posted.stop, running]
  | iterate index answers =>
    obtain ⟨c, found, rfl⟩ := Option.map_eq_some_iff.mp stepped
    simp only [State.Ends, found, Option.some.injEq, exists_eq_left', State.iterate]
    split
    · next app ran => simp [ran, running]
    · next ended ran => simp [ran]

/-! An environment in which the calls before the loop succeed, for runs on concrete tapes. -/

/-- Every call succeeds, the listening socket is 3, and fresh memory is zeroed. -/
def calmSetup : Setup where
  queueInitParams := 0
  registerBuffers := 0
  posixMemalign _ := 0
  registerBufRing _ := 0
  socketfd := 3
  setsockopt := 0
  bind := 0
  listen := 0
  openFds := [0, 1, 2, 3]
  iovecs _ := ⟨⟨.bufpool, 0⟩, 0⟩
  freebs _ := ⟨0, 0, none⟩
  br _ := ⟨fun _ => ⟨⟨.bufpool, 0⟩, 0, 0⟩, 0, 0⟩
  bufs _ _ := ⟨⟨.bufpool, 0⟩, 0⟩
  memory _ := nul

/-- Every call succeeds; the peer of a descriptor has the descriptor as the last byte of its
address. -/
def calm : Answers where
  waitCqe := 0
  submit := 0
  getpeername fd := (0, ⟨(10, 0, 0, Fin.ofNat 256 fd.toNat), (31, 144)⟩)
  now := ⟨2025, 1, 2, 3, 4, 5, 6⟩
  consumed := 0
  pad _ := 0

/-- The program of `main` in that environment. -/
def calmConfig : Config := mainConfig calmSetup

/-- Start-up, and all that it queued consumed: the multishot accept is live at index 0 and the four
log writes follow. -/
def calmStart : List Event := mainEvents (fun _ => calm) ++ [.poll 5]

/-- Where a tape leads from the state before the first event, if the machine takes it. -/
def replay? (cfg : Config) (events : List Event) : Option State :=
  (State.initial cfg).toOption.bind fun first => run? (step? cfg) first events

theorem replay?_eq_some_iff {cfg : Config} {events : List Event} {s : State} :
    replay? cfg events = some s ↔
      ∃ first, State.initial cfg = .ok first ∧ run? (step? cfg) first events = some s := by
  simp only [replay?, Option.bind_eq_some_iff, toOption_eq_some_iff]

/-- A computed test of the endpoint of a tape yields a run that passes it. -/
theorem exists_of_replay? {cfg : Config} {events : List Event} {test : State → Bool}
    (passed : (replay? cfg events).any test = true) :
    ∃ first s, State.initial cfg = .ok first ∧ run? (step? cfg) first events = some s ∧
      test s = true := by
  obtain ⟨s, replayed, holds⟩ := (Option.any_eq_true ..).mp passed
  obtain ⟨first, start, run⟩ := replay?_eq_some_iff.mp replayed
  exact ⟨first, s, start, run, holds⟩

/-- The same for a run of the server as `main` starts it. -/
theorem exists_serverRun {events : List Event} {test : State → Bool}
    (inLoop : events.all Event.inLoop = true)
    (passed : (replay? calmConfig (mainEvents (fun _ => calm) ++ events)).any test = true) :
    ∃ s, ServerRun calmConfig (fun _ => calm) events s ∧ test s = true := by
  obtain ⟨first, s, start, run, holds⟩ := exists_of_replay? passed
  exact ⟨s, ⟨List.all_eq_true.mp inLoop, first, start, run⟩, holds⟩

end UringServer
