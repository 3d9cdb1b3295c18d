import UringServer.Proofs.PoolOwnership

/-! # The length of a log write

`log_event` hands the kernel the length that `snprintf` returns, which is that of the whole line, also
when the buffer took only a part of it. The write passes what was stored exactly when the line fits.
How long a line gets is up to the message and so, for packets, up to the client.
-/

namespace UringServer

open Fallible Replay

/-- A write of `nbytes` bytes from `buf` passes what `snprintf` stored in a buffer, without the
terminator and without a byte behind the buffer. -/
structure PassesStored (memory : Memory) (iov : Iovec) (stored : List Char) (buf : Ptr)
    (nbytes : ℕ) : Prop where
  count : nbytes = stored.length
  most : nbytes ≤ loggingBufsize - 1
  within : buf = iov.iovBase ∧ nbytes < iov.iovLen
  contents : memory.read buf nbytes = stored
  terminated : memory (buf.add nbytes) = nul

/-- From `self` to `next` one line was logged with `regbuf`, and its write passes what was stored. -/
def LogsExactly (self next : Appctx) (regbuf : BufpoolFreebuf) : Prop :=
  ∃ r buf nbytes userData, next.log = self.log ++ [r] ∧
    next.uring.sqes = self.uring.sqes ++
      [⟨.writeFixed stderrFileno buf nbytes 0 regbuf.bid, userData⟩] ∧
    PassesStored next.memory (self.bufpool.iovecs regbuf.iov) (snprintf loggingBufsize r.line).1 buf
      nbytes

/-- Brackets, blanks, colour codes and the newline of a line. -/
def lineFrame : ℕ := 17

/-- The line for a message fits below the size of a log buffer. -/
def LineFits (level : LogLevel) (bid : ℕ) (now : Timestamp) (message : List Char) : Prop :=
  (formatTimestamp now).length + (decimal bid).length + (logLevelStr level).length +
    message.length + lineFrame < loggingBufsize

instance (level : LogLevel) (bid : ℕ) (now : Timestamp) (message : List Char) :
    Decidable (LineFits level bid now message) := inferInstanceAs (Decidable (_ < _))

theorem logLine_length (level : LogLevel) (bid : ℕ) (scratch1 scratch2 : List Char) :
    (logLine level bid scratch1 scratch2).length =
      scratch1.length + (decimal bid).length + (logLevelStr level).length + scratch2.length +
        lineFrame := by
  have color : (logLevelColor level).length = 5 := by cases level <;> rfl
  have reset : colorReset.length = 4 := rfl
  have opening : " [".toList.length = 2 := rfl
  have closing : "] ".toList.length = 2 := rfl
  simp only [logLine, List.length_append, List.length_cons, List.length_nil, color, reset, opening,
    closing, lineFrame]
  omega

/-- Cutting the message to the scratch buffer does not make a line fit that would not fit whole. -/
theorem logLine_fits_iff (level : LogLevel) (bid : ℕ) (now : Timestamp) (message : List Char) :
    (logLine level bid (formatTimestamp now) (snprintf loggingBufsize message).1).length <
      loggingBufsize ↔ LineFits level bid now message := by
  rw [logLine_length, LineFits]
  simp only [snprintf, List.length_take, loggingBufsize, lineFrame]
  omega

/-- The clock of a year with four digits. -/
structure Timestamp.Civil (now : Timestamp) : Prop where
  year : 10 ^ 3 ≤ now.year ∧ now.year < 10 ^ 4
  month : now.month < 10 ^ 2
  day : now.day < 10 ^ 2
  hour : now.hour < 10 ^ 2
  minute : now.minute < 10 ^ 2
  second : now.second < 10 ^ 2
  millisecond : now.millisecond < 10 ^ 3

theorem padded_length {width n : ℕ} (positive : 0 < width) (bound : n < 10 ^ width) :
    (padded width n).length = width := by
  have digits := decimal_length_le positive bound
  simp only [padded, List.length_append, List.length_replicate]
  omega

theorem formatTimestamp_length {now : Timestamp} (civil : now.Civil) :
    (formatTimestamp now).length = 23 := by
  have year : (decimal now.year).length = 4 := by
    have most := decimal_length_le (by decide) civil.year.2
    have least : ¬ (decimal now.year).length ≤ 3 := fun fewer =>
      Nat.not_lt.mpr civil.year.1 ((Nat.length_toDigits_le_iff (by decide) (by decide)).mp fewer)
    omega
  have date : (strftime loggingBufsize now).length = 19 := by
    have length : (decimal now.year ++ '-' :: padded 2 now.month ++ '-' :: padded 2 now.day ++
        ' ' :: padded 2 now.hour ++ ':' :: padded 2 now.minute ++
        ':' :: padded 2 now.second).length = 19 := by
      simp only [List.length_append, List.length_cons, year, padded_length (by decide) civil.month,
        padded_length (by decide) civil.day, padded_length (by decide) civil.hour,
        padded_length (by decide) civil.minute, padded_length (by decide) civil.second]
    rw [strftime, if_pos (by rw [length]; decide)]
    exact length
  have milliseconds : ('.' :: padded 3 now.millisecond).length = 4 := by
    rw [List.length_cons, padded_length (by decide) civil.millisecond]
  rw [formatTimestamp, snprintf_of_fits (by rw [milliseconds, date]; decide), List.length_append,
    date, milliseconds]

/-- On a civil clock, id, level and message share 215 characters. -/
theorem lineFits_iff_of_civil {now : Timestamp} (civil : now.Civil) (level : LogLevel) (bid : ℕ)
    (message : List Char) : LineFits level bid now message ↔
      (decimal bid).length + (logLevelStr level).length + message.length ≤ 215 := by
  rw [LineFits, formatTimestamp_length civil, lineFrame, loggingBufsize]
  omega

/-- A line that fits is printed whole, into the slice of its buffer. -/
theorem PoolInvariant.logged_memory {entries : ℕ} {app : Appctx} {unfinished : List Sqe}
    (invariant : PoolInvariant entries app.bufpool unfinished) {node : ℕ}
    (head : app.bufpool.freelistHead = some node) {level : LogLevel} {args : LogArgs}
    {answers : Answers} (slot : SqeSlot)
    (short : (app.lineText level args answers node).length < loggingBufsize) :
    app.logBuf node = ⟨.bufpool, node * loggingBufsize⟩ ∧
      (app.logged level args answers node slot).memory = app.memory.write
        ⟨.bufpool, node * loggingBufsize⟩ (app.lineText level args answers node ++ [nul]) := by
  have bound := (invariant.head head).1
  have place : app.logBuf node = ⟨.bufpool, node * loggingBufsize⟩ := by
    rw [Appctx.logBuf, (invariant.nodes node bound).2, invariant.carved node bound]
  have printed : (app.lineText level args answers node).take (loggingBufsize - 1) =
    app.lineText level args answers node := List.take_of_length_le (by omega)
  refine ⟨place, ?_⟩
  rw [← place, ← printed, Appctx.logged, printed]

section LogEvent

variable {cfg : Config} {s : State} {level : LogLevel} {self next : Appctx} {args : LogArgs}
  {answers : Answers} {regbuf : BufpoolFreebuf} {pool : Bufpool}

theorem lineText_fits_iff {node : ℕ} : (self.lineText level args answers node).length < loggingBufsize ↔
    LineFits level (self.bufpool.freelistMem node).bid answers.now (args.expand self.memory) :=
  logLine_fits_iff ..

/-- If a write passes what was stored, then the line was stored whole. -/
theorem LogsExactly.fits (exactly : LogsExactly self next regbuf)
    (log : logEvent level self args answers = .ok next) :
    LineFits level regbuf.bid answers.now (args.expand self.memory) := by
  obtain ⟨r, buf, nbytes, userData, -, queued, passes⟩ := exactly
  obtain ⟨node, slot, -, ring, rfl⟩ := logEvent_ok_iff.mp log
  have sqes : (self.logged level args answers node slot).uring.sqes =
      self.uring.sqes ++ [self.writeSqe level args answers node] := by
    rw [← ring]
    rfl
  have same := List.singleton_inj.mp (List.append_cancel_left (sqes.symm.trans queued))
  obtain ⟨-, -, length, -, bid⟩ := Request.writeFixed.inj (congrArg Sqe.request same)
  rw [← bid]
  apply lineText_fits_iff.mp
  have most := passes.most
  rw [← length] at most
  exact Nat.lt_of_le_sub_one (by decide) most

/-- A line that fits is stored whole, and its write passes it. -/
private theorem logsExactly_of_fits {entries : ℕ} {unfinished : List Sqe}
    (invariant : PoolInvariant entries self.bufpool unfinished)
    (log : logEvent level self args answers = .ok next)
    (popped : bufpoolPop self.bufpool = some (regbuf, pool))
    (fits : LineFits level regbuf.bid answers.now (args.expand self.memory)) :
    LogsExactly self next regbuf := by
  obtain ⟨node, slot, head, ring, rfl⟩ := logEvent_ok_iff.mp log
  obtain ⟨_, again, rfl, -⟩ := bufpoolPop_eq_some_iff.mp popped
  obtain rfl := Option.some.inj (head.symm.trans again)
  have short := lineText_fits_iff.mpr fits
  obtain ⟨place, memory⟩ := @PoolInvariant.logged_memory _ self _ invariant _ head level args answers
    slot short
  have bound := (invariant.head head).1
  have carved : self.bufpool.iovecs (self.bufpool.freelistMem node).iov =
      ⟨⟨.bufpool, node * loggingBufsize⟩, loggingBufsize⟩ := by
    rw [(invariant.nodes node bound).2, invariant.carved node bound]
  have whole : (snprintf loggingBufsize (self.lineText level args answers node)).1 =
      self.lineText level args answers node := snprintf_of_fits short
  refine ⟨_, self.logBuf node, (self.lineText level args answers node).length,
    (self.writeSqe level args answers node).userData, rfl, ?_, ?_⟩
  · rw [← ring]
    rfl
  · rw [whole, memory, place, carved]
    refine ⟨rfl, Nat.le_sub_one_of_lt short, ⟨rfl, short⟩, Memory.read_write_self .., ?_⟩
    have stored : (self.lineText level args answers node).length <
        (self.lineText level args answers node ++ [nul]).length := by simp
    rw [Memory.write_add _ _ stored]
    exact List.getElem_concat_length rfl _

/-- Wherever a run calls `log_event`, whatever it formats, the write passes exactly what `snprintf`
stored if and only if the line fits. -/
theorem logs_exactly_iff_fits (reachable : Reachable cfg s) (same : self.bufpool = s.app.bufpool)
    (log : logEvent level self args answers = .ok next)
    (popped : bufpoolPop self.bufpool = some (regbuf, pool)) :
    LogsExactly self next regbuf ↔
      LineFits level regbuf.bid answers.now (args.expand self.memory) := by
  have invariant := reachable.poolInvariant
  rw [← same] at invariant
  exact ⟨fun exactly => exactly.fits log, logsExactly_of_fits invariant log popped⟩

/-- The first line of the start-up fits. -/
theorem logs_exactly_iff_fits_start : ∃ s next regbuf pool, Reachable calmConfig s ∧
    logEvent .debug s.app (.text "Server starting 1...".toList) calm = .ok next ∧
    bufpoolPop s.app.bufpool = some (regbuf, pool) ∧ LogsExactly s.app next regbuf := by
  have passed : (replay? calmConfig []).any (fun s =>
      (logEvent .debug s.app (.text "Server starting 1...".toList) calm).toOption.any fun _ =>
      (bufpoolPop s.app.bufpool).any fun popped =>
        LineFits .debug popped.1.bid calm.now "Server starting 1...".toList) = true := by
    decide +kernel
  obtain ⟨first, s, start, run, holds⟩ := exists_of_replay? passed
  obtain ⟨next, logged, holds⟩ := (Option.any_eq_true ..).mp holds
  obtain ⟨⟨regbuf, pool⟩, popped, fits⟩ := (Option.any_eq_true ..).mp holds
  have log := toOption_eq_some_iff.mp logged
  have reachable : Reachable calmConfig s := ⟨first, [], start, run⟩
  exact ⟨s, next, regbuf, pool, reachable, log, popped,
    (logs_exactly_iff_fits reachable rfl log popped).mpr (of_decide_eq_true fits)⟩

/-- A client connects and sends 200 bytes. -/
def longPacket : List Event :=
  [.poll 5, .complete 0 (.accepted 5 true), .iterate 0 calm, .poll 2,
    .complete 5 (.received (List.replicate 200 'a') true)]

/-- The line about that packet has 301 characters. All of them are asked to be written from a buffer
of 256 bytes, in which 255 were stored. -/
theorem logs_exactly_long_packet : ∃ s c next regbuf pool,
    ServerRun calmConfig (fun _ => calm) longPacket s ∧ s.app.uring.cq[0]? = some c ∧
    logEvent .debug s.app (s.app.packetArgs c.cqe) calm = .ok next ∧
    bufpoolPop s.app.bufpool = some (regbuf, pool) ∧
    (next.uring.sqes.getLast?.map (·.request)) = some (.writeFixed stderrFileno
      (s.app.bufpool.iovecs regbuf.iov).iovBase 301 0 regbuf.bid) ∧
    (s.app.bufpool.iovecs regbuf.iov).iovLen = 256 ∧ ¬ LogsExactly s.app next regbuf := by
  have passed : (replay? calmConfig (mainEvents (fun _ => calm) ++ longPacket)).any (fun s =>
      (s.app.uring.cq[0]?).any fun c =>
      (logEvent .debug s.app (s.app.packetArgs c.cqe) calm).toOption.any fun next =>
      (bufpoolPop s.app.bufpool).any fun popped =>
        (next.uring.sqes.getLast?.map (·.request)) = some (.writeFixed stderrFileno
          (s.app.bufpool.iovecs popped.1.iov).iovBase 301 0 popped.1.bid) ∧
        (s.app.bufpool.iovecs popped.1.iov).iovLen = 256 ∧
        ¬ LineFits .debug popped.1.bid calm.now ((s.app.packetArgs c.cqe).expand s.app.memory)) =
          true := by
    decide +kernel
  obtain ⟨s, run, holds⟩ := exists_serverRun rfl passed
  obtain ⟨c, waiting, holds⟩ := (Option.any_eq_true ..).mp holds
  obtain ⟨next, logged, holds⟩ := (Option.any_eq_true ..).mp holds
  obtain ⟨⟨regbuf, pool⟩, popped, holds⟩ := (Option.any_eq_true ..).mp holds
  obtain ⟨queued, size, overrun⟩ := of_decide_eq_true holds
  have log := toOption_eq_some_iff.mp logged
  exact ⟨s, c, next, regbuf, pool, run, waiting, log, popped, queued, size,
    fun exactly => overrun (exactly.fits log)⟩

end LogEvent

end UringServer
