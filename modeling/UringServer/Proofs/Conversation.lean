import UringServer.Lib.Simulation
import UringServer.Proofs.Lifecycle
import UringServer.Proofs.PacketRanges
import UringServer.Proofs.Routing
import UringServer.Spec.Greeter

/-! # The server is a greeter

A connection with its peer is a client, a filled buffer is a message. Every step of the server or of the
kernel is then answered by at most one action of the greeter: handled accepts and messages are, one for
one, what makes it act, besides listening and its own lines. The submission queue is its history, entry by
entry, and the log is what it reports. Two things it does in its own way: a greeting goes to the descriptor
cut to 16 bits, and a packet is reported under the address of the client that connected last.
-/

namespace UringServer

open Fallible Replay History

/-- A connection and the peer that `getpeername` named for it. -/
abbrev Client := ℤ × SockaddrIn

/-- The id of a filled buffer and the length in its completion. -/
abbrev Packet := ℕ × ℤ

/-- What the queue shows of a request: log writes look alike. -/
def Request.shown : Request → Option Request
  | .writeFixed _ _ _ _ _ => none
  | request => some request

/-- The id and the length of a log write. -/
def Sqe.line? (sqe : Sqe) : Option (ℕ × ℕ) :=
  match sqe.request with
  | .writeFixed _ _ nbytes _ bid => some (bid, nbytes)
  | _ => none

@[simp] theorem recvmsgSqe_shown (fd : ℤ) (answers : Answers) :
    (recvmsgSqe fd answers).request.shown = some (receiveOn fd) := rfl

@[simp] theorem sendSqe_shown (ud : Userdata) (answers : Answers) :
    (sendSqe ud answers).request.shown = some (.sendZc ud.fd.toInt message) := rfl

@[simp] theorem recvmsgSqe_line? (fd : ℤ) (answers : Answers) : (recvmsgSqe fd answers).line? = none := rfl

@[simp] theorem sendSqe_line? (ud : Userdata) (answers : Answers) : (sendSqe ud answers).line? = none := rfl

/-- The address of the client that connected last, as far as there is one. -/
def newestText (newest : Option Client) : List Char := (newest.map fun client => addrText client.2).getD []

/-- The line that a notice becomes. -/
def Notice.args (cfg : Config) : Notice Client Packet → LogArgs
  | .text fmt => .text fmt
  | .connected client => .newConnection (addrText client.2)
  | .packet newest (bid, len) => .packetFrom (newestText newest) bid len (len - recvmsgOutSize)
      (((Block.bufring bufringsConn).carve (cfg.bufringParams bufringsConn).entrySize bid).iovBase.add
        recvmsgOutSize)

namespace Output

/-- The queue entry that an output becomes; reports are log writes. -/
def request? (cfg : Config) : Output Client Packet → Option Request
  | .listen => some (.multishotAccept cfg.setup.socketfd)
  | .subscribe client => some (receiveOn client.1)
  | .report _ => none
  | .greet client => some (.sendZc (client.1 % 2 ^ 16) message)

/-- The line that an output becomes, if it is a report. -/
def line? (cfg : Config) : Output Client Packet → Option LogArgs
  | .report notice => some (notice.args cfg)
  | _ => none

end Output

/-- The queue, the log and the connections of a server, as a greeter's. -/
structure Renders (cfg : Config) (s : State) (g : Greeter Client Packet) : Prop where
  queue : s.app.uring.sqes.map (·.request.shown) = g.outputs.map (Output.request? cfg)
  log : s.app.log.map (·.args) = g.outputs.filterMap (Output.line? cfg)
  lines : s.app.uring.sqes.filterMap Sqe.line? = s.app.log.map fun r => (r.bid, r.line.length)
  clients : g.clients.map Prod.fst = (s.handled.filterMap Completion.connected?).reverse
  fmtAddr : s.app.fmtAddr = newestText g.clients.head?

/-- What makes a greeter act from outside: a client connects, or it sends a packet. -/
abbrev Occasion := ℤ × Option Packet

/-- The occasion of an action; listening and saying something have none. -/
def Action.occasion? : Action Client Packet → Option Occasion
  | .listen => none
  | .say _ => none
  | .connect client => some (client.1, none)
  | .message client packet => some (client.1, some packet)

/-- The occasion that a completion is: the descriptor that was accepted, or the one that was received on
with the buffer and the length of the message. -/
def Completion.occasion? (c : Completion) : Option Occasion :=
  match c.sqe.request with
  | .multishotAccept _ => some (c.cqe.res, none)
  | .recvmsgMultishot fd _ => c.buf.map fun buf => (fd, some (buf.bid, c.cqe.res))
  | .sendZc _ _ => none
  | .writeFixed _ _ _ _ _ => none

namespace Renders

variable {cfg : Config} {s next : State} {g : Greeter Client Packet}

/-- What the greeter does not see. -/
theorem unseen (renders : Renders cfg s g) (sqes : next.app.uring.sqes = s.app.uring.sqes)
    (log : next.app.log = s.app.log) (fmtAddr : next.app.fmtAddr = s.app.fmtAddr)
    (connected : next.handled.filterMap Completion.connected? =
      s.handled.filterMap Completion.connected?) : Renders cfg next g := by
  refine ⟨?_, ?_, ?_, ?_, ?_⟩
  · rw [sqes, renders.queue]
  · rw [log, renders.log]
  · rw [sqes, log, renders.lines]
  · rw [connected, renders.clients]
  · rw [fmtAddr, renders.fmtAddr]

/-- More queue entries and lines, as the greeter puts out more. -/
theorem add (renders : Renders cfg s g) {clients : List Client} {outputs : List (Output Client Packet)}
    {added : List Sqe} {records : List LogRecord} (sqes : next.app.uring.sqes = s.app.uring.sqes ++ added)
    (log : next.app.log = s.app.log ++ records)
    (queue : added.map (·.request.shown) = outputs.map (Output.request? cfg))
    (args : records.map (·.args) = outputs.filterMap (Output.line? cfg))
    (lines : added.filterMap Sqe.line? = records.map fun r => (r.bid, r.line.length))
    (connected : clients.map Prod.fst = (next.handled.filterMap Completion.connected?).reverse)
    (fmtAddr : next.app.fmtAddr = newestText clients.head?) :
    Renders cfg next { g.emit outputs with clients := clients } := by
  refine ⟨?_, ?_, ?_, connected, fmtAddr⟩
  · rw [sqes, List.map_append, queue, renders.queue]
    exact List.map_append.symm
  · rw [log, List.map_append, args, renders.log]
    exact List.filterMap_append.symm
  · rw [sqes, List.filterMap_append, lines, renders.lines, log, List.map_append]

/-- A request in the queue is an output of the greeter. -/
private theorem mem_outputs (renders : Renders cfg s g) {sqe : Sqe} (queued : sqe ∈ s.app.uring.sqes) :
    ∃ output ∈ g.outputs, output.request? cfg = sqe.request.shown := by
  have shown : sqe.request.shown ∈ g.outputs.map (Output.request? cfg) :=
    renders.queue ▸ List.mem_map_of_mem queued
  exact List.mem_map.mp shown

end Renders

/-- A call of `log_event` queues one write and logs one line, of one id and length. -/
theorem logEvent_line {level : LogLevel} {self next : Appctx} {args : LogArgs} {answers : Answers}
    (log : logEvent level self args answers = .ok next) : ∃ (r : LogRecord) (write : Sqe),
      r.args = args ∧ write.request.shown = none ∧ write.line? = some (r.bid, r.line.length) ∧
      next.uring.sqes = self.uring.sqes ++ [write] ∧ next.log = self.log ++ [r] := by
  obtain ⟨node, slot, -, ring, rfl⟩ := logEvent_ok_iff.mp log
  refine ⟨⟨level, args, (self.bufpool.freelistMem node).bid, self.lineText level args answers node⟩,
    self.writeSqe level args answers node, rfl, rfl, rfl, ?_, rfl⟩
  rw [← ring]
  rfl

section Handled

variable {cfg : Config} {s : State} {g : Greeter Client Packet} {c : Completion} {index : ℕ}

/-- Some accept was queued before one was answered. -/
theorem Renders.listening (renders : Renders cfg s g) (reachable : Reachable cfg s)
    (found : s.app.uring.cq[index]? = some c) {listenfd : ℤ}
    (request : c.sqe.request = .multishotAccept listenfd) : .listen ∈ g.outputs := by
  obtain ⟨queued, -⟩ := reachable.requested.posted c (mem_posted_of_cq found)
  obtain ⟨output, member, shown⟩ := renders.mem_outputs queued
  rw [request] at shown
  cases output with
  | listen => exact member
  | _ => cases shown

/-- An accepted descriptor is not the one of an earlier client. -/
theorem Renders.fresh (renders : Renders cfg s g) (reachable : Reachable cfg s)
    (found : s.app.uring.cq[index]? = some c) {client : Client}
    (connected : c.connected? = some client.1) : client ∉ g.clients := by
  intro member
  have earlier : client.1 ∈ s.handled.filterMap Completion.connected? := by
    rw [← List.mem_reverse, ← renders.clients]
    exact List.mem_map_of_mem member
  have now : client.1 ∈ s.app.uring.cq.filterMap Completion.connected? :=
    List.mem_filterMap.mpr ⟨c, List.mem_of_getElem? found, connected⟩
  have distinct := reachable.connections.distinct
  rw [List.filterMap_append] at distinct
  exact List.disjoint_of_nodup_append distinct now earlier

/-- Who is received from was subscribed to, and so is a client. -/
theorem Renders.known (renders : Renders cfg s g) (sound : g.Sound) (reachable : Reachable cfg s)
    (found : s.app.uring.cq[index]? = some c) {fd : ℤ} {group : ℕ}
    (request : c.sqe.request = .recvmsgMultishot fd group) : ∃ peer, (fd, peer) ∈ g.clients := by
  obtain ⟨queued, -⟩ := reachable.requested.posted c (mem_posted_of_cq found)
  obtain ⟨output, member, shown⟩ := renders.mem_outputs queued
  rw [request] at shown
  cases output with
  | subscribe client =>
    obtain ⟨rfl, -⟩ := Request.recvmsgMultishot.inj (Option.some.inj shown)
    exact ⟨client.2, (sound.subscribed client).mp member⟩
  | _ => cases shown

/-- The packet line of a completion is the notice of its packet. -/
theorem Renders.packetArgs (renders : Renders cfg s g) (reachable : Reachable cfg s)
    (found : s.app.uring.cq[index]? = some c) {buf : IoUringBuf} (filled : c.buf = some buf) :
    s.app.packetArgs c.cqe = Notice.args cfg (.packet g.clients.head? (buf.bid, c.cqe.res)) := by
  have genuine := (reachable.requested.posted c (mem_posted_of_cq found)).2
  have ring := reachable.ringInvariant
  have held : buf ∈ s.heldBufs := List.mem_filterMap.mpr ⟨c, List.mem_of_getElem? found, filled⟩
  have carved := ring.carved buf.bid (ring.described buf held).bid_lt
  rw [Appctx.packetArgs, genuine.bid filled, renders.fmtAddr, ← State.conn, carved, ring.registered]
  rfl

/-- What handling a completion does is the one action that the completion is the occasion of, if any. -/
theorem Handled.renders {branch : Appctx} {answers : Answers} (handled : Handled s.app c answers branch)
    (reachable : Reachable cfg s) (sound : g.Sound) (renders : Renders cfg s g)
    (found : s.app.uring.cq[index]? = some c) : ∃ actions after,
      run? Greeter.act? g actions = some after ∧
      Renders cfg { s with app := branch.finish index, handled := s.handled ++ [c] } after ∧
      actions.filterMap Action.occasion? = [c].filterMap Completion.occasion? := by
  obtain ⟨queued, genuine⟩ := reachable.requested.posted c (mem_posted_of_cq found)
  cases handled with
  | write request =>
    refine ⟨[], g, rfl, renders.unseen rfl rfl rfl ?_, ?_⟩
    · simp [Completion.connected?, request]
    · simp [Completion.occasion?, request]
  | send request =>
    refine ⟨[], g, rfl, renders.unseen rfl rfl rfl ?_, ?_⟩
    · simp [Completion.connected?, request]
    · simp [Completion.occasion?, request]
  | @accept listenfd first next request positive ring log =>
    obtain ⟨r, write, args, shown, line, sqes, records⟩ := logEvent_line log
    have connected : c.connected? = some c.cqe.res := by simp [Completion.connected?, request, positive]
    let client : Client := (c.cqe.res, (answers.getpeername c.cqe.res).2)
    have allowed : .listen ∈ g.outputs ∧ client ∉ g.clients :=
      ⟨renders.listening reachable found request, renders.fresh reachable found connected⟩
    refine ⟨[.connect client], _, run?_cons_iff.mpr ⟨_, if_pos allowed, run?_nil⟩, ?_, ?_⟩
    swap
    · simp [Action.occasion?, Completion.occasion?, request, client]
    have queue : branch.uring.sqes = s.app.uring.sqes ++ [recvmsgSqe c.cqe.res answers, write] := by
      rw [sqes, ← ring]
      exact List.append_assoc ..
    refine renders.add queue records ?_ ?_ ?_ ?_ ?_
    · simp [shown, Output.request?, client]
    · simp [args, Output.line?, Notice.args, client, List.filterMap_cons]
    · simp [line, List.filterMap_cons]
    · simp [renders.clients, connected, client]
    · exact logEvent_fmtAddr log
  | @recvmsg fd group buf logged second request filled log ring =>
    obtain ⟨r, write, args, shown, line, sqes, records⟩ := logEvent_line log
    obtain ⟨peer, known⟩ := renders.known sound reachable found request
    have sent := decoded_fd_toInt genuine (reachable.requested.tagged c.sqe queued)
    rw [request] at sent
    refine ⟨[.message (fd, peer) (buf.bid, c.cqe.res)], _,
      run?_cons_iff.mpr ⟨_, if_pos known, run?_nil⟩, ?_, ?_⟩
    swap
    · simp [Action.occasion?, Completion.occasion?, request, filled]
    have queue : second.ring.sqes ++ [sendSqe (userdataDecode c.cqe.userData) answers] =
        s.app.uring.sqes ++ [write, sendSqe (userdataDecode c.cqe.userData) answers] := by
      have polled : second.ring.sqes = logged.uring.sqes := by rw [ring]; rfl
      rw [polled, sqes]
      exact List.append_assoc ..
    refine renders.add queue records ?_ ?_ ?_ ?_ ?_
    · simp [shown, sent, Output.request?, Request.ident]
    · simp [args, renders.packetArgs reachable found filled, Output.line?, List.filterMap_cons]
    · simp [line, List.filterMap_cons]
    · simp [renders.clients, Completion.connected?, request]
    · exact (logEvent_fmtAddr log).trans renders.fmtAddr

end Handled

/-- A server and the greeter that it is so far, with the actions that led there: their occasions are the
completions that were handled. -/
structure Conversing (cfg : Config) (s : State) (actions : List (Action Client Packet))
    (g : Greeter Client Packet) : Prop where
  reachable : Reachable cfg s
  sound : g.Sound
  renders : Renders cfg s g
  occasions : actions.filterMap Action.occasion? = s.handled.filterMap Completion.occasion?

/-- Every step is answered by at most one action of the greeter. -/
theorem conversing_simulates (cfg : Config) :
    Simulates (step? cfg) Greeter.act? (fun _ => True) (Conversing cfg) := by
  rintro s past g event next - ⟨reachable, sound, renders, occasions⟩ stepped
  suffices answered : ∃ actions after, run? Greeter.act? g actions = some after ∧
      Renders cfg next after ∧ ∃ added, next.handled = s.handled ++ added ∧
        actions.filterMap Action.occasion? = added.filterMap Completion.occasion? by
    obtain ⟨actions, after, answered, renders, added, handled, same⟩ := answered
    refine ⟨actions, after, answered, reachable.step stepped, sound.run answered, renders, ?_⟩
    rw [handled, List.filterMap_append, List.filterMap_append, occasions, same]
  cases (step_of_step? reachable.requested stepped).2 with
  | stops _ stop => exact ⟨[], g, rfl, renders.unseen rfl rfl rfl rfl, [], (List.append_nil _).symm, rfl⟩
  | @mainAccept answers slot ring =>
    refine ⟨[.listen], _, rfl, ?_, [], (List.append_nil _).symm, rfl⟩
    refine @Renders.add cfg s _ g renders g.clients [.listen] [acceptSqe cfg.setup.socketfd answers] []
      ?_ (List.append_nil _).symm rfl rfl rfl renders.clients renders.fmtAddr
    rw [← ring]
    rfl
  | @mainLog level fmt answers next log =>
    obtain ⟨r, write, args, shown, line, sqes, records⟩ := logEvent_line log
    refine ⟨[.say fmt], _, rfl, ?_, [], (List.append_nil _).symm, rfl⟩
    refine @Renders.add cfg s _ g renders g.clients [.report (.text fmt)] [write] [r] sqes records ?_ ?_ ?_
      renders.clients ((logEvent_fmtAddr log).trans renders.fmtAddr)
    · simp [shown, Output.request?]
    · simp [args, Output.line?, Notice.args]
    · simp [line]
  | mainSubmit => exact ⟨[], g, rfl, renders.unseen rfl rfl rfl rfl, [], (List.append_nil _).symm, rfl⟩
  | poll => exact ⟨[], g, rfl, renders.unseen rfl rfl rfl rfl, [], (List.append_nil _).symm, rfl⟩
  | complete found posted =>
    obtain ⟨c, -, -, handled, uring⟩ := posted.genuine
    refine ⟨[], g, rfl, renders.unseen ?_ posted.log posted.fmtAddr (by rw [handled]), [], ?_, rfl⟩
    · rw [uring]
      rfl
    · rw [handled, List.append_nil]
  | @iterate index answers c branch found handled =>
    obtain ⟨actions, after, answered, same, occasion⟩ := handled.renders reachable sound renders found
    exact ⟨actions, after, answered, same, [c], rfl, occasion⟩

/-- A server that has not begun is a greeter that has not begun. -/
private theorem conversing_initial {cfg : Config} {first : State} (start : State.initial cfg = .ok first) :
    Conversing cfg first [] .start := by
  have initial := initial_spec start
  refine ⟨.initial start, Greeter.start_sound, ⟨?_, ?_, ?_, ?_, ?_⟩, ?_⟩
  · rw [initial.uring]
    rfl
  · rw [initial.log]
    rfl
  · rw [initial.uring, initial.log]
    rfl
  · rw [initial.handled]
    rfl
  · rw [initial.fmtAddr]
    rfl
  · rw [initial.handled]
    rfl

/-- Wherever the server is, some actions of the greeter lead there. -/
theorem Reachable.conversing {cfg : Config} {s : State} (reachable : Reachable cfg s) :
    ∃ actions g, run? Greeter.act? .start actions = some g ∧ Conversing cfg s actions g := by
  obtain ⟨first, events, start, run⟩ := reachable
  exact (conversing_simulates cfg).run (fun _ _ => trivial) (conversing_initial start) run

/-- Every run of the server is a run of the greeter on the occasions that were handled, one for one and in
order: the queue is the history of the greeter, entry by entry, and the log is what it reports. -/
theorem server_refines_greeter {cfg : Config} {s : State} (reachable : Reachable cfg s) :
    ∃ actions g, run? Greeter.act? .start actions = some g ∧ Renders cfg s g ∧
      actions.filterMap Action.occasion? = s.handled.filterMap Completion.occasion? := by
  obtain ⟨actions, g, answered, conversing⟩ := reachable.conversing
  exact ⟨actions, g, answered, conversing.renders, conversing.occasions⟩

/-- Two connections and a message of the first. -/
theorem server_refines_greeter_message : ∃ s, Reachable calmConfig s ∧
    s.handled.filterMap Completion.occasion? = [(5, none), (6, none), (5, some (0, 17))] ∧
    s.app.log.length = 7 ∧
    ∃ actions g, run? Greeter.act? .start actions = some g ∧ Renders calmConfig s g ∧
      actions.filterMap Action.occasion? = s.handled.filterMap Completion.occasion? := by
  have passed : (replay? calmConfig (twoConnections 5 6 5)).any (fun s =>
      s.handled.filterMap Completion.occasion? = [(5, none), (6, none), (5, some (0, 17))] ∧
      s.app.log.length = 7) = true := by decide +kernel
  obtain ⟨first, s, start, run, holds⟩ := exists_of_replay? passed
  obtain ⟨occasions, lines⟩ := of_decide_eq_true holds
  have reachable : Reachable calmConfig s := ⟨first, _, start, run⟩
  exact ⟨s, reachable, occasions, lines, server_refines_greeter reachable⟩

/-- Why a request is in the queue, judged by the requests before it. -/
def Request.Caused (before : List Request) : Request → Prop
  | .multishotAccept _ => True
  | .recvmsgMultishot _ group => group = bufringsConn ∧ ∃ listenfd, .multishotAccept listenfd ∈ before
  | .sendZc fd data => data = message ∧ (∃ client, receiveOn client ∈ before ∧ client % 2 ^ 16 = fd) ∧
      ∃ write, before.getLast? = some write ∧ write.opcode = .writeFixed
  | .writeFixed _ _ _ _ _ => True

/-- A packet is logged under an address that was logged before. -/
def LogArgs.Caused (before : List LogArgs) : LogArgs → Prop
  | .text _ => True
  | .newConnection _ => True
  | .packetFrom addr _ _ _ _ => .newConnection addr ∈ before

end UringServer
