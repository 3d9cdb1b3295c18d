import UringServer.Proofs.LogLength
import UringServer.Proofs.MemoryFrame
import UringServer.Proofs.PacketRanges

/-! # What is logged about a packet

The kernel stores a message in a provided buffer, and some time later the handler prints it from
there. The bytes are still those of the message as long as the kernel was not handed the same buffer
again in between. That is so whenever ids circulate exactly once. What the log buffer holds of them in
the end is cut three times: at the first terminator, to the scratch buffer and, as part of the line, to
the log buffer.
-/

namespace UringServer

open Fallible Replay

/-- `"Packet from %s, bid: %d, len: %d, content: %.*s"` for a message as it was sent. -/
def packetText (addr : List Char) (bid : ℕ) (payload : List Char) : List Char :=
  "Packet from ".toList ++ addr ++ ", bid: ".toList ++ decimal bid ++ ", len: ".toList ++
    decimal (recvmsgOutSize + payload.length) ++ ", content: ".toList ++ payload.takeWhile (· != nul)

/-- The log buffer at `buf` holds the record of a line about `text`: the text cut to the scratch buffer
and the line cut to the log buffer. A line that fits is held whole, and all of the text in it. -/
structure HoldsLine (memory : Memory) (buf : Ptr) (r : LogRecord) (now : Timestamp) (text : List Char) :
    Prop where
  line : r.line = logLine r.level r.bid (formatTimestamp now) (snprintf loggingBufsize text).1
  stored : memory.read buf ((snprintf loggingBufsize r.line).1.length + 1) =
    (snprintf loggingBufsize r.line).1 ++ [nul]
  whole : LineFits r.level r.bid now text →
    (snprintf loggingBufsize r.line).1 = logLine r.level r.bid (formatTimestamp now) text

/-- From `s` to `next` one line was logged at `level` about `text`: its write was queued, followed by a
reply, and the buffer of the write holds the line. -/
def LogsText (s next : State) (level : LogLevel) (answers : Answers) (text : List Char) : Prop :=
  ∃ r buf userData reply, r.level = level ∧ next.app.log = s.app.log ++ [r] ∧
    next.app.uring.sqes = s.app.uring.sqes ++
      [⟨.writeFixed stderrFileno buf r.line.length 0 r.bid, userData⟩, reply] ∧
    HoldsLine next.app.memory buf r answers.now text

namespace Memory

/-- The end of a range, read on its own. -/
private theorem read_add (memory : Memory) (ptr : Ptr) (skipped length : ℕ) :
    memory.read (ptr.add skipped) length = (memory.read ptr (skipped + length)).drop skipped := by
  apply List.ext_getElem
  · simp
  · intro i _ _
    simp only [read, List.getElem_map, List.getElem_range, List.getElem_drop, Ptr.add, Nat.add_assoc]

end Memory

section Contents

variable {cfg : Config} {s t : State} {buf : IoUringBuf} {events : List Event}

/-- The event takes no buffer with the id of `buf`. -/
def State.Spares (buf : IoUringBuf) (s : State) (event : Event) : Prop :=
  ∀ taken, s.taken? event = some taken → taken.bid ≠ buf.bid

/-- A buffer keeps its contents for as long as the kernel is not handed it again. -/
theorem Reachable.contents_kept (reachable : Reachable cfg s) (described : s.conn.Describes buf)
    {length : ℕ} (fits : length ≤ buf.len) (run : run? (step? cfg) s events = some t)
    (spared : Along (step? cfg) (State.Spares buf) s events) :
    t.app.memory.read buf.addr length = s.app.memory.read buf.addr length ∧ t.conn.Describes buf := by
  let Kept (u : State) : Prop := Reachable cfg u ∧ u.conn.Describes buf ∧
    u.app.memory.read buf.addr length = s.app.memory.read buf.addr length
  have step (u : State) (event : Event) (next : State) (kept : Kept u) (spares : u.Spares buf event)
      (stepped : step? cfg u event = some next) : Kept next := by
    obtain ⟨here, described, same⟩ := kept
    have taken := (step_of_step? here.requested stepped).2
    refine ⟨here.step stepped, taken.describes here described, ?_⟩
    rw [← same]
    refine Memory.read_congr fun i bound => here.frame stepped ?_
    have inside : buf.addr.add i ∈ buf.range := by
      refine ⟨rfl, Nat.le_add_right _ _, ?_⟩
      exact Nat.add_lt_add_left (bound.trans_le fits) _
    exact Set.disjoint_left.mp (here.spared described spares) inside
  obtain ⟨-, described, same⟩ := run?_preserves_along step ⟨reachable, described, rfl⟩ run spared
  exact ⟨same, described⟩

private theorem recvmsgOut_length (payload : List Char) :
    (State.recvmsgOut payload).length = recvmsgOutSize := rfl

/-- The text about a packet whose buffer still holds it. -/
private theorem packetArgs_expand {self : Appctx} {cqe : Cqe} {payload : List Char} {addr : Ptr}
    (table : ((self.bufrings bufringsConn).bufs cqe.bid).iovBase = addr)
    (size : cqe.res = ((recvmsgOutSize + payload.length : ℕ) : ℤ))
    (contents : self.memory.read addr (recvmsgOutSize + payload.length) =
      State.recvmsgOut payload ++ payload) :
    (self.packetArgs cqe).expand self.memory = packetText self.fmtAddr cqe.bid payload := by
  have rest : (cqe.res - recvmsgOutSize).toNat = payload.length := by omega
  have message : self.memory.read (addr.add recvmsgOutSize) payload.length = payload := by
    rw [Memory.read_add, contents, ← recvmsgOut_length payload, List.drop_left]
  have length : decimalInt cqe.res = decimal (recvmsgOutSize + payload.length) := by
    rw [size]
    rfl
  unfold Appctx.packetArgs packetText
  dsimp only [LogArgs.expand]
  simp only [Memory.cstring, table, rest, message, length]

/-- The buffer that `log_event` takes holds its line. -/
private theorem logEvent_holdsLine {level : LogLevel} {self next : Appctx} {args : LogArgs}
    {answers : Answers} (log : logEvent level self args answers = .ok next) : ∃ r buf userData,
      r.level = level ∧ next.log = self.log ++ [r] ∧
      next.uring.sqes = self.uring.sqes ++
        [⟨.writeFixed stderrFileno buf r.line.length 0 r.bid, userData⟩] ∧
      HoldsLine next.memory buf r answers.now (args.expand self.memory) := by
  obtain ⟨node, slot, -, ring, rfl⟩ := logEvent_ok_iff.mp log
  have memory : (self.logged level args answers node slot).memory = self.memory.write (self.logBuf node)
      ((snprintf loggingBufsize (self.lineText level args answers node)).1 ++ [nul]) := by
    simp only [Appctx.logged, snprintf]
  have printed := Memory.read_write_self self.memory (self.logBuf node)
    ((snprintf loggingBufsize (self.lineText level args answers node)).1 ++ [nul]) []
  rw [List.append_nil, List.length_append, List.length_singleton] at printed
  refine ⟨⟨level, args, (self.bufpool.freelistMem node).bid, self.lineText level args answers node⟩,
    self.logBuf node, (self.writeSqe level args answers node).userData, rfl, rfl, ?_, rfl, ?_, fun fits => ?_⟩
  · rw [← ring]
    rfl
  · rw [memory]
    exact printed
  -- If the line fits, so did the text before.
  have short := (logLine_fits_iff level (self.bufpool.freelistMem node).bid answers.now
    (args.expand self.memory)).mpr fits
  have text : (args.expand self.memory).length < loggingBufsize := by
    rw [LineFits] at fits
    omega
  dsimp only [Appctx.lineText]
  rw [snprintf_of_fits short, snprintf_of_fits text]

/-- What the handler prints about a packet is what stands in its buffer. -/
theorem Reachable.logs_contents {next : State} (reachable : Reachable cfg t) {index : ℕ}
    {c : Completion} {answers : Answers} (found : t.app.uring.cq[index]? = some c)
    (filled : c.buf = some buf) (described : t.conn.Describes buf) {payload : List Char}
    (size : c.cqe.res = ((recvmsgOutSize + payload.length : ℕ) : ℤ))
    (contents : t.app.memory.read buf.addr (recvmsgOutSize + payload.length) =
      State.recvmsgOut payload ++ payload)
    (stepped : step? cfg t (.iterate index answers) = some next) (running : next.stop = none) :
    LogsText t next .debug answers (packetText t.app.fmtAddr c.cqe.bid payload) := by
  have requested := reachable.requested
  have genuine := (requested.posted c (mem_posted_of_cq found)).2
  have table : ((t.app.bufrings bufringsConn).bufs c.cqe.bid).iovBase = buf.addr := by
    rw [genuine.bid filled]
    exact described.addr.symm
  have text := packetArgs_expand table size contents
  obtain ⟨⟨fd, group, request⟩, -, -⟩ := genuine.filled buf filled
  obtain ⟨-, step⟩ := step_of_step? requested stepped
  generalize taken : Event.iterate index answers = event at step
  cases step with
  | stops _ stop => cases running
  | @iterate index' answers' c' branch found' handled =>
    cases taken
    obtain rfl := Option.some.inj (found'.symm.trans found)
    cases handled with
    | @recvmsg fd' group' buf' logged second request' filled' log ring =>
      obtain ⟨r, place, userData, level, logs, sqes, holds⟩ := logEvent_holdsLine log
      refine ⟨r, place, userData, sendSqe (userdataDecode c'.cqe.userData) answers, level, logs, ?_, ?_⟩
      · have queued : second.ring.sqes = logged.uring.sqes := by
          rw [ring]
          rfl
        change second.ring.sqes ++ [_] = _
        rw [queued, sqes, List.append_assoc]
        rfl
      · rwa [text] at holds
    | write other => rw [request] at other; cases other
    | accept other => rw [request] at other; cases other
    | send other => rw [request] at other; cases other
  | _ => cases taken

end Contents

/-- A message that waits in the completion queue: its completion, and the state in which the kernel
posted it. -/
structure Delivered (cfg : Config) (s posted : State) (payload : List Char) (c : Completion) : Prop where
  step : ∃ index more, step? cfg s (.complete index (.received payload more)) = some posted
  completion : posted.app.uring.cq = s.app.uring.cq ++ [c]

/-- The kernel stored the message in the buffer that the completion names. -/
theorem Delivered.stored {cfg : Config} {s posted : State} {payload : List Char} {c : Completion}
    (delivered : Delivered cfg s posted payload c) (reachable : Reachable cfg s) :
    ∃ buf, c.buf = some buf ∧ posted.conn.Describes buf ∧
      recvmsgOutSize + payload.length ≤ buf.len ∧
      c.cqe.res = ((recvmsgOutSize + payload.length : ℕ) : ℤ) ∧
      posted.app.memory.read buf.addr (recvmsgOutSize + payload.length) =
        State.recvmsgOut payload ++ payload := by
  obtain ⟨index, more, stepped⟩ := delivered.step
  have completed : s.complete? index (.received payload more) = some posted := by
    simpa [step?, running_of_step? stepped] using stepped
  obtain ⟨sqe, buf, br, taken, fits, memory, rings, cq⟩ := reachable.received completed
  obtain rfl : c = _ := List.singleton_inj.mp
    (List.append_cancel_left (delivered.completion.symm.trans cq))
  have described := (reachable.headBuf (by rw [State.headBuf?, taken]; rfl)).1
  have length : (State.recvmsgOut payload ++ payload).length = recvmsgOutSize + payload.length := by
    rw [List.length_append, recvmsgOut_length]
  rw [length] at fits
  refine ⟨buf, rfl, ?_, fits, congrArg Nat.cast length, ?_⟩
  · exact (step_of_step? reachable.requested stepped).2.describes reachable described
  · rw [memory]
    have stored := Memory.read_write_self s.app.memory buf.addr (State.recvmsgOut payload ++ payload) []
    rwa [List.append_nil, length] at stored

/-- While it runs, ids circulate exactly once. -/
def State.Circulates (cfg : Config) (s : State) : Prop :=
  Reachable cfg s ∧ (s.stop = none → s.RingExact)

/-- Circulation goes on as long as no buffer is given back with harm. -/
theorem State.Circulates.step {cfg : Config} {s next : State} {event : Event}
    (circulates : s.Circulates cfg) (harmless : s.RecycleOk event)
    (stepped : step? cfg s event = some next) : next.Circulates cfg := by
  obtain ⟨reachable, exactly⟩ := circulates
  refine ⟨reachable.step stepped, fun running => ?_⟩
  obtain ⟨alive, step⟩ := step_of_step? reachable.requested stepped
  exact (step.ringExact_iff reachable running (exactly alive)).mpr harmless

/-- In a run that gives no buffer back with harm, every message is logged with the bytes that were sent, as
far as the three cuts leave them, however long it waits and whatever happens in the meantime. -/
theorem packets_logged_while_circulating {cfg : Config} {first s posted t next : State}
    {earlier later : List Event} {payload : List Char} {c : Completion} {index : ℕ} {answers : Answers}
    (start : State.initial cfg = .ok first) (before : run? (step? cfg) first earlier = some s)
    (harmless : Along (step? cfg) State.RecycleOk first earlier)
    (delivered : Delivered cfg s posted payload c) (run : run? (step? cfg) posted later = some t)
    (stays : Along (step? cfg) State.RecycleOk posted later)
    (waits : Throughout (step? cfg) (fun u => c ∈ u.app.uring.cq) posted later)
    (found : t.app.uring.cq[index]? = some c)
    (stepped : step? cfg t (.iterate index answers) = some next) (running : next.stop = none) :
    LogsText t next .debug answers (packetText t.app.fmtAddr c.cqe.bid payload) := by
  have keeps (u : State) (event : Event) (next : State) (circulates : u.Circulates cfg)
      (harmless : u.RecycleOk event) (stepped : step? cfg u event = some next) :
      next.Circulates cfg := circulates.step harmless stepped
  have begins : first.Circulates cfg :=
    ⟨.initial start, fun _ => (initial_spec start).ringExact⟩
  have here : s.Circulates cfg := run?_preserves_along keeps begins before harmless
  obtain ⟨place, more, received⟩ := delivered.step
  have there : posted.Circulates cfg := by
    refine here.step ?_ received
    intro buf gives
    cases gives
  obtain ⟨buf, filled, described, fits, size, stored⟩ := delivered.stored here.1
  have spares (u : State) (event : Event) (next : State) (circulates : u.Circulates cfg)
      (waiting : c ∈ u.app.uring.cq) (stepped : step? cfg u event = some next) :
      u.Spares buf event := by
    have held : buf ∈ u.heldBufs := List.mem_filterMap.mpr ⟨c, waiting, filled⟩
    have exactly := circulates.2 (running_of_step? stepped)
    exact fun taken => circulates.1.taken_fresh exactly held
  have spared := along_of_throughout keeps spares there run waits stays
  obtain ⟨kept, known⟩ := there.1.contents_kept described fits run spared
  exact (there.1.trans run).logs_contents found filled known size (kept.trans stored) stepped running

/-- The packet in buffer 0 is handled, and the one in buffer 1 while the one in buffer 2 waits. -/
theorem packets_logged_while_circulating_second : ∃ t next, Reachable calmConfig t ∧
    step? calmConfig t (.iterate 0 calm) = some next ∧
    t.heldBufs.map (·.bid) = [1, 2] ∧
    LogsText t next .debug calm (packetText t.app.fmtAddr 1 ['b']) := by
  let earlier := listening ++ [.complete 5 (.received ['a'] true), .iterate 0 calm]
  let later : List Event := [.complete 5 (.received ['c'] true)]
  have passed : (State.initial calmConfig).toOption.any (fun first =>
      (run? (step? calmConfig) first earlier).any fun s =>
      (step? calmConfig s (.complete 5 (.received ['b'] true))).any fun posted =>
      (run? (step? calmConfig) posted later).any fun t =>
      (t.app.uring.cq[0]?).any fun c =>
      (step? calmConfig t (.iterate 0 calm)).any fun next =>
        posted.app.uring.cq = s.app.uring.cq ++ [c] ∧ c.cqe.bid = 1 ∧ next.stop = none ∧
        t.heldBufs.map (·.bid) = [1, 2] ∧ Along (step? calmConfig) State.RecycleOk first earlier ∧
        Along (step? calmConfig) State.RecycleOk posted later ∧
        Throughout (step? calmConfig) (fun u => c ∈ u.app.uring.cq) posted later) = true := by
    decide +kernel
  obtain ⟨first, start, holds⟩ := (Option.any_eq_true ..).mp passed
  obtain ⟨s, before, holds⟩ := (Option.any_eq_true ..).mp holds
  obtain ⟨posted, received, holds⟩ := (Option.any_eq_true ..).mp holds
  obtain ⟨t, run, holds⟩ := (Option.any_eq_true ..).mp holds
  obtain ⟨c, found, holds⟩ := (Option.any_eq_true ..).mp holds
  obtain ⟨next, stepped, holds⟩ := (Option.any_eq_true ..).mp holds
  obtain ⟨completion, bid, running, waiting, harmless, stays, waits⟩ := of_decide_eq_true holds
  have started := toOption_eq_some_iff.mp start
  have reachable : Reachable calmConfig s := ⟨first, _, started, before⟩
  have line := packets_logged_while_circulating started before harmless
    ⟨⟨5, true, received⟩, completion⟩ run stays waits found stepped running
  rw [bid] at line
  exact ⟨t, next, (reachable.step received).trans run, stepped, waiting, line⟩

end UringServer
