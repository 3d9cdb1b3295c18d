import UringServer.Model.Server
import UringServer.Proofs.FreeList

/-! # What the handlers do

One lemma for each function of the program that can fail: the exact condition under which it
returns, with the context it returns, and the condition under which it ends the process. Later
proofs use these and never open a handler.
-/

namespace UringServer

open Fallible

namespace Appctx

/-- The log buffer that belongs to a node of the pool. -/
def logBuf (self : Appctx) (node : ℕ) : Ptr :=
  (self.bufpool.iovecs (self.bufpool.freelistMem node).iov).iovBase

/-- The line that `log_event` prints into the buffer of `node`. -/
def lineText (self : Appctx) (level : LogLevel) (args : LogArgs) (answers : Answers)
    (node : ℕ) : List Char :=
  logLine level (self.bufpool.freelistMem node).bid (formatTimestamp answers.now)
    (snprintf loggingBufsize (args.expand self.memory)).1

/-- The write that `log_event` queues for the buffer of `node`. -/
def writeSqe (self : Appctx) (level : LogLevel) (args : LogArgs) (answers : Answers)
    (node : ℕ) : Sqe :=
  ⟨.writeFixed stderrFileno (self.logBuf node) (self.lineText level args answers node).length 0
      (self.bufpool.freelistMem node).bid,
    encodeUserdata (answers.pad .writeFixed) (BitVec.ofNat 16 (self.bufpool.freelistMem node).bid)
      Opcode.writeFixed.code⟩

/-- The context after a call of `log_event` that took `node` from the pool and queued in `slot`. -/
def logged (self : Appctx) (level : LogLevel) (args : LogArgs) (answers : Answers)
    (node : ℕ) (slot : SqeSlot) : Appctx :=
  { self with
    uring := slot.store (self.writeSqe level args answers node)
    bufpool := { self.bufpool with freelistHead := (self.bufpool.freelistMem node).next }
    memory := self.memory.write (self.logBuf node)
      ((self.lineText level args answers node).take (loggingBufsize - 1) ++ [nul])
    log := self.log ++ [⟨level, args, (self.bufpool.freelistMem node).bid,
      self.lineText level args answers node⟩] }

end Appctx

/-- `log_event` returns when the pool has a free buffer and the queue a free entry. -/
theorem logEvent_ok_iff {level : LogLevel} {self next : Appctx} {args : LogArgs}
    {answers : Answers} : logEvent level self args answers = .ok next ↔
      ∃ node slot, self.bufpool.freelistHead = some node ∧ slot.ring = self.uring ∧
        next = self.logged level args answers node slot := by
  simp only [logEvent, bind_ok_iff, assertNotNull_ok_iff, ioUringGetSqe_eq_some_iff, pure_ok_iff,
    Prod.exists]
  constructor
  · rintro ⟨regbuf, pool, popped, slot, ring, rfl⟩
    obtain ⟨node, head, rfl, rfl⟩ := bufpoolPop_eq_some_iff.mp popped
    refine ⟨node, slot, head, ring, ?_⟩
    simp only [Appctx.logged, Appctx.writeSqe, Appctx.lineText, Appctx.logBuf, snprintf]
  · rintro ⟨node, slot, head, ring, rfl⟩
    refine ⟨_, _, bufpoolPop_eq_some_iff.mpr ⟨node, head, rfl, rfl⟩, slot, ring, ?_⟩
    simp only [Appctx.logged, Appctx.writeSqe, Appctx.lineText, Appctx.logBuf, snprintf]

/-- `log_event` ends the process on an empty pool, and else on a full queue. -/
theorem logEvent_error_iff {level : LogLevel} {self : Appctx} {args : LogArgs}
    {answers : Answers} {stop : Stop} : logEvent level self args answers = .error stop ↔
      (self.bufpool.freelistHead = none ∧ stop = .assertNotNull .regbuf) ∨
      (self.bufpool.freelistHead ≠ none ∧ self.uring.unconsumed.length = sqEntries ∧
        stop = .assertNotNull .sqe) := by
  simp only [logEvent, bind_error_iff, assertNotNull_error_iff, assertNotNull_ok_iff,
    bufpoolPop_eq_none_iff, ioUringGetSqe_eq_none_iff, pure_ne_error, and_false, exists_false, or_false,
    Prod.exists]
  constructor
  · rintro (empty | ⟨regbuf, pool, popped, full⟩)
    · exact .inl empty
    · obtain ⟨node, head, -, -⟩ := bufpoolPop_eq_some_iff.mp popped
      exact .inr ⟨by simp [head], full⟩
  · rintro (empty | ⟨free, full⟩)
    · exact .inl empty
    · obtain ⟨node, head⟩ := Option.ne_none_iff_exists'.mp free
      have popped := bufpoolPop_eq_some_iff.mpr ⟨node, head, rfl, rfl⟩
      exact .inr ⟨_, _, popped, full⟩

section LogEvent

variable {level : LogLevel} {self next : Appctx} {args : LogArgs} {answers : Answers}

/-! What a call of `log_event` changes: one queue entry, one line of the log, the pool and memory. -/

theorem logEvent_uring (log : logEvent level self args answers = .ok next) :
    ∃ (node : ℕ) (slot : SqeSlot), slot.ring = self.uring ∧
      next.uring = slot.store (self.writeSqe level args answers node) := by
  obtain ⟨node, slot, -, ring, rfl⟩ := logEvent_ok_iff.mp log
  exact ⟨node, slot, ring, rfl⟩

theorem logEvent_sqes (log : logEvent level self args answers = .ok next) :
    ∃ node, next.uring.sqes = self.uring.sqes ++ [self.writeSqe level args answers node] := by
  obtain ⟨node, slot, ring, same⟩ := logEvent_uring log
  rw [same, ← ring]
  exact ⟨node, rfl⟩

theorem logEvent_cq (log : logEvent level self args answers = .ok next) :
    next.uring.cq = self.uring.cq := by
  obtain ⟨node, slot, ring, same⟩ := logEvent_uring log
  rw [same, ← ring]
  rfl

theorem logEvent_bufrings (log : logEvent level self args answers = .ok next) :
    next.bufrings = self.bufrings := by
  obtain ⟨node, slot, -, -, rfl⟩ := logEvent_ok_iff.mp log
  rfl

theorem logEvent_fmtAddr (log : logEvent level self args answers = .ok next) :
    next.fmtAddr = self.fmtAddr := by
  obtain ⟨node, slot, -, -, rfl⟩ := logEvent_ok_iff.mp log
  rfl

theorem logEvent_log (log : logEvent level self args answers = .ok next) :
    next.log.map (·.args) = self.log.map (·.args) ++ [args] := by
  obtain ⟨node, slot, -, -, rfl⟩ := logEvent_ok_iff.mp log
  simp [Appctx.logged]

end LogEvent

/-- The text `ip:port` of an address. -/
def addrText (addr : SockaddrIn) : List Char := dottedDecimal addr ++ ':' :: decimal addr.port

theorem decimal_length_le {n digits : ℕ} (positive : 0 < digits) (bound : n < 10 ^ digits) :
    (decimal n).length ≤ digits :=
  (Nat.length_toDigits_le_iff (by decide) positive).mpr bound

/-- A text has at most 15 characters in front of the colon, and 5 behind it. -/
theorem addrText_bounds (addr : SockaddrIn) :
    (dottedDecimal addr).length ≤ 15 ∧ (decimal addr.port).length ≤ 5 := by
  have octet (byte : Fin 256) : (decimal byte).length ≤ 3 :=
    decimal_length_le (by decide) (by omega)
  have port : (decimal addr.port).length ≤ 5 :=
    decimal_length_le (by decide) (by unfold SockaddrIn.port; omega)
  refine ⟨?_, port⟩
  have := octet addr.sinAddr.1
  have := octet addr.sinAddr.2.1
  have := octet addr.sinAddr.2.2.1
  have := octet addr.sinAddr.2.2.2
  simp only [dottedDecimal, List.length_append, List.length_cons]
  omega

/-- Addresses are never cut: the longest takes 21 of the 32 bytes. -/
theorem formatInetAddr_ok_iff {getpeername : ℤ → ℤ × SockaddrIn} {sockfd : ℤ} {text : List Char} :
    formatInetAddrFromSockfd getpeername sockfd fmtAddrlen = .ok text ↔
      (getpeername sockfd).1 ≤ 0 ∧ text = addrText (getpeername sockfd).2 := by
  unfold formatInetAddrFromSockfd
  generalize getpeername sockfd = answer
  obtain ⟨err, sender⟩ := answer
  obtain ⟨ip, port⟩ := addrText_bounds sender
  have whole : inetNtop sender fmtAddrlen = dottedDecimal sender :=
    if_pos (by simp only [fmtAddrlen]; omega)
  have fits : (':' :: decimal sender.port).length < fmtAddrlen - (dottedDecimal sender).length := by
    simp only [List.length_cons, fmtAddrlen]
    omega
  simp only [bind_ok_iff, assertPositive_ok_iff, pure_ok_iff, exists_const, whole, snprintf_of_fits fits,
    addrText]
  constructor
  · rintro ⟨success, rfl⟩
    exact ⟨by omega, rfl⟩
  · rintro ⟨success, rfl⟩
    exact ⟨by omega, rfl⟩

theorem formatInetAddr_error_iff {getpeername : ℤ → ℤ × SockaddrIn} {sockfd : ℤ} {bufSz : ℕ}
    {stop : Stop} : formatInetAddrFromSockfd getpeername sockfd bufSz = .error stop ↔
      0 < (getpeername sockfd).1 ∧ stop = .assertPositive (-(getpeername sockfd).1) := by
  simp only [formatInetAddrFromSockfd, bind_error_iff, assertPositive_error_iff, pure_ne_error,
    and_false, exists_false, or_false, Left.neg_neg_iff]

/-- The multishot accept that `main` queues. -/
def acceptSqe (socketfd : ℤ) (answers : Answers) : Sqe :=
  ⟨.multishotAccept socketfd,
    encodeUserdata (answers.pad .accept) (BitVec.ofInt 16 socketfd) Opcode.accept.code⟩

theorem mainAccept_error_iff {socketfd : ℤ} {appctx : Appctx} {answers : Answers} {stop : Stop} :
    mainAccept socketfd appctx answers = .error stop ↔
      appctx.uring.unconsumed.length = sqEntries ∧ stop = .assertNotNull .sqe := by
  simp only [mainAccept, bind_error_iff, assertNotNull_error_iff, ioUringGetSqe_eq_none_iff,
    pure_ne_error, and_false, exists_false, or_false]

theorem mainSubmit_error_iff {appctx : Appctx} {answers : Answers} {stop : Stop} :
    mainSubmit appctx answers = .error stop ↔
      answers.submit < 0 ∧ stop = .assertPositive answers.submit := by
  simp only [mainSubmit, bind_error_iff, assertPositive_error_iff, pure_ne_error, and_false,
    exists_false, or_false]

/-- The multishot receive that the accept handler queues for a new connection. -/
def recvmsgSqe (clientfd : ℤ) (answers : Answers) : Sqe :=
  ⟨.recvmsgMultishot clientfd bufringsConn,
    encodeUserdata (answers.pad .recvmsg) (BitVec.ofInt 16 clientfd) Opcode.recvmsg.code⟩

/-- The context of the accept handler when it logs: the receive is queued, the address is
formatted, and the polling thread may have moved on. -/
def Appctx.armed (self : Appctx) (clientfd : ℤ) (answers : Answers) (slot : SqeSlot) : Appctx :=
  { self with
    uring := slot.store (recvmsgSqe clientfd answers)
    fmtAddr := addrText (answers.getpeername clientfd).2 }.poll answers.consumed

/-- `appctx_handle_accept` returns for a descriptor if the queue has room for the receive and then
`log_event` returns. -/
theorem appctxHandleAccept_ok_iff {self next : Appctx} {cqe : Cqe} {answers : Answers} :
    appctxHandleAccept self cqe answers = .ok next ↔
      0 ≤ cqe.res ∧ (answers.getpeername cqe.res).1 ≤ 0 ∧ ∃ first : SqeSlot, first.ring = self.uring ∧
        logEvent .debug (self.armed cqe.res answers first)
          (.newConnection (addrText (answers.getpeername cqe.res).2)) answers = .ok next := by
  simp only [appctxHandleAccept, bind_ok_iff, assertPositive_ok_iff, useSqe_ok_iff,
    ioUringGetSqe_eq_some_iff, formatInetAddr_ok_iff, exists_const]
  constructor
  · rintro ⟨positive, first, ring, text, ⟨success, rfl⟩, logged⟩
    exact ⟨positive, success, first, ring, logged⟩
  · rintro ⟨positive, success, first, ring, logged⟩
    exact ⟨positive, first, ring, _, ⟨success, rfl⟩, logged⟩

/-- `appctx_handle_accept` ends the process on an error, on a full queue, or in `log_event`. -/
theorem appctxHandleAccept_error_iff {self : Appctx} {cqe : Cqe} {answers : Answers} {stop : Stop} :
    appctxHandleAccept self cqe answers = .error stop ↔
      (cqe.res < 0 ∧ stop = .assertPositive cqe.res) ∨
      (0 ≤ cqe.res ∧ self.uring.unconsumed.length = sqEntries ∧ stop = .nullSqe) ∨
      (0 ≤ cqe.res ∧ ∃ first : SqeSlot, first.ring = self.uring ∧
        ((0 < (answers.getpeername cqe.res).1 ∧
          stop = .assertPositive (-(answers.getpeername cqe.res).1)) ∨
        ((answers.getpeername cqe.res).1 ≤ 0 ∧
          logEvent .debug (self.armed cqe.res answers first)
            (.newConnection (addrText (answers.getpeername cqe.res).2)) answers = .error stop))) := by
  simp only [appctxHandleAccept, bind_error_iff, assertPositive_error_iff, assertPositive_ok_iff,
    useSqe_error_iff, useSqe_ok_iff, ioUringGetSqe_eq_none_iff, ioUringGetSqe_eq_some_iff,
    formatInetAddr_error_iff, formatInetAddr_ok_iff, exists_const]
  constructor
  · rintro (negative | ⟨positive, full | ⟨first, ring, failed | ⟨text, ⟨success, rfl⟩, logged⟩⟩⟩)
    · exact .inl negative
    · exact .inr (.inl ⟨positive, full⟩)
    · exact .inr (.inr ⟨positive, first, ring, .inl failed⟩)
    · exact .inr (.inr ⟨positive, first, ring, .inr ⟨success, logged⟩⟩)
  · rintro (negative | ⟨positive, full⟩ | ⟨positive, first, ring, failed | ⟨success, logged⟩⟩)
    · exact .inl negative
    · exact .inr ⟨positive, .inl full⟩
    · exact .inr ⟨positive, .inr ⟨first, ring, .inl failed⟩⟩
    · exact .inr ⟨positive, .inr ⟨first, ring, .inr ⟨_, ⟨success, rfl⟩, logged⟩⟩⟩

/-- The buffer id that a completion names in its flags. -/
def Cqe.bid (cqe : Cqe) : ℕ := cqe.flags >>> ioringCqeBufferShift

/-- What `appctx_handle_recvmsg` logs about a packet. -/
def Appctx.packetArgs (self : Appctx) (cqe : Cqe) : LogArgs :=
  .packetFrom self.fmtAddr cqe.bid cqe.res (cqe.res - recvmsgOutSize)
    (((self.bufrings bufringsConn).bufs cqe.bid).iovBase.add recvmsgOutSize)

/-- The reply that the recvmsg handler queues. -/
def sendSqe (ud : Userdata) (answers : Answers) : Sqe :=
  ⟨.sendZc ud.fd.toInt message,
    encodeUserdata (answers.pad .sendmsg) (ud.fd.setWidth 16) Opcode.sendmsg.code⟩

/-- The context of the recvmsg handler after logging: the buffer is given back. -/
def Appctx.recycled (self : Appctx) (bid : ℕ) (answers : Answers) : Appctx :=
  { self with
    bufrings := Function.update self.bufrings bufringsConn
      ((self.bufrings bufringsConn).recycle bid) }.poll answers.consumed

theorem recvmsgOutSize_nonneg : (0 : ℤ) ≤ recvmsgOutSize := by decide

/-- With the message header of the handler, which has no name and no control data, a message is
valid if the fixed header fits. -/
theorem ioUringRecvmsgValidate_eq (buf : Ptr) (bufLen : ℤ) :
    ioUringRecvmsgValidate buf bufLen ⟨0, 0⟩ =
      if bufLen < recvmsgOutSize then none else some buf := by
  have header : Msghdr.payloadOffset ⟨0, 0⟩ = recvmsgOutSize := rfl
  have size := recvmsgOutSize_nonneg
  rw [ioUringRecvmsgValidate, header]
  exact if_congr (by omega) rfl rfl

theorem ioUringRecvmsgValidate_eq_some_iff {buf out : Ptr} {bufLen : ℤ} :
    ioUringRecvmsgValidate buf bufLen ⟨0, 0⟩ = some out ↔ (recvmsgOutSize : ℤ) ≤ bufLen ∧ out = buf := by
  rw [ioUringRecvmsgValidate_eq]
  split
  · next short => simp [short]
  · next long => simp [not_lt.mp long, eq_comm]

theorem ioUringRecvmsgValidate_eq_none_iff {buf : Ptr} {bufLen : ℤ} :
    ioUringRecvmsgValidate buf bufLen ⟨0, 0⟩ = none ↔ bufLen < recvmsgOutSize := by
  rw [ioUringRecvmsgValidate_eq]
  split
  · next short => simp [short]
  · next long => simp [not_lt.mp long]

/-- `appctx_handle_recvmsg` returns for a message with a header if `log_event` returns and the
queue then has room for the reply. -/
theorem appctxHandleRecvmsg_ok_iff {self next : Appctx} {cqe : Cqe} {answers : Answers} :
    appctxHandleRecvmsg self cqe answers = .ok next ↔
      (recvmsgOutSize : ℤ) ≤ cqe.res ∧ ∃ logged, logEvent .debug self (self.packetArgs cqe) answers =
        .ok logged ∧ ∃ second : SqeSlot, second.ring = (logged.recycled cqe.bid answers).uring ∧
          next = { logged.recycled cqe.bid answers with
            uring := second.store (sendSqe (userdataDecode cqe.userData) answers) } := by
  have size := recvmsgOutSize_nonneg
  simp only [appctxHandleRecvmsg, bind_ok_iff, assertPositive_ok_iff, assertNotNull_ok_iff,
    ioUringRecvmsgValidate_eq_some_iff, useSqe_ok_iff, ioUringGetSqe_eq_some_iff, pure_ok_iff,
    exists_const]
  constructor
  · rintro ⟨-, out, ⟨long, rfl⟩, logged, log, second, ring, rfl⟩
    rw [← logEvent_bufrings log] at ring ⊢
    exact ⟨long, logged, log, second, ring, rfl⟩
  · rintro ⟨long, logged, log, second, ring, rfl⟩
    refine ⟨by omega, _, ⟨long, rfl⟩, logged, log, second, ?_, ?_⟩
    · rw [← logEvent_bufrings log]
      exact ring
    · rw [← logEvent_bufrings log]
      rfl

/-- `appctx_handle_recvmsg` ends the process on an error, on a message without a header, in
`log_event`, or on a full queue. -/
theorem appctxHandleRecvmsg_error_iff {self : Appctx} {cqe : Cqe} {answers : Answers} {stop : Stop} :
    appctxHandleRecvmsg self cqe answers = .error stop ↔
      (cqe.res < 0 ∧ stop = .assertPositive cqe.res) ∨
      (0 ≤ cqe.res ∧ cqe.res < recvmsgOutSize ∧ stop = .assertNotNull .out) ∨
      ((recvmsgOutSize : ℤ) ≤ cqe.res ∧
        (logEvent .debug self (self.packetArgs cqe) answers = .error stop ∨
        ∃ logged, logEvent .debug self (self.packetArgs cqe) answers = .ok logged ∧
          (logged.recycled cqe.bid answers).uring.unconsumed.length = sqEntries ∧
          stop = .nullSqe)) := by
  have size := recvmsgOutSize_nonneg
  simp only [appctxHandleRecvmsg, bind_error_iff, assertPositive_error_iff, assertPositive_ok_iff,
    assertNotNull_error_iff, assertNotNull_ok_iff, ioUringRecvmsgValidate_eq_none_iff,
    ioUringRecvmsgValidate_eq_some_iff, useSqe_error_iff, useSqe_ok_iff, ioUringGetSqe_eq_none_iff,
    pure_ne_error, and_false, exists_false, or_false, exists_const]
  constructor
  · rintro (negative | ⟨positive, short | ⟨out, ⟨long, rfl⟩, failed | ⟨logged, log, full⟩⟩⟩)
    · exact .inl negative
    · exact .inr (.inl ⟨positive, short⟩)
    · exact .inr (.inr ⟨long, .inl failed⟩)
    · rw [← logEvent_bufrings log] at full
      exact .inr (.inr ⟨long, .inr ⟨logged, log, full⟩⟩)
  · rintro (negative | ⟨positive, short⟩ | ⟨long, failed | ⟨logged, log, full⟩⟩)
    · exact .inl negative
    · exact .inr ⟨positive, .inl short⟩
    · exact .inr ⟨by omega, .inr ⟨_, ⟨long, rfl⟩, .inl failed⟩⟩
    · refine .inr ⟨by omega, .inr ⟨_, ⟨long, rfl⟩, .inr ⟨logged, log, ?_⟩⟩⟩
      rw [← logEvent_bufrings log]
      exact full

end UringServer
