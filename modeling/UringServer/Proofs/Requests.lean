import UringServer.Proofs.Handlers

/-! # Requests, completions and the steps between them

A request is tagged with its operation and with its descriptor or buffer id cut to 16 bits, and
completions carry the tag back. The operation always survives, so the loop branches on the kind of
request that was made. `Step` lists what one event can do under that invariant, with the next
state written out; all further invariants are proved by cases on it.
-/

namespace UringServer

open Fallible PositionalFile Replay

namespace Request

/-- The operation that the program records for a request. -/
def opcode : Request → Opcode
  | .multishotAccept _ => .accept
  | .recvmsgMultishot _ _ => .recvmsg
  | .sendZc _ _ => .sendmsg
  | .writeFixed _ _ _ _ _ => .writeFixed

/-- The descriptor or buffer id that the program records for a request. -/
def ident : Request → ℤ
  | .multishotAccept fd => fd
  | .recvmsgMultishot fd _ => fd
  | .sendZc fd _ => fd
  | .writeFixed _ _ _ _ bufIndex => bufIndex

end Request

/-- The tag of a request names its operation and its identity modulo `2 ^ 16`; a receive selects
its buffers from the group of the connection ring. -/
structure Sqe.Tagged (sqe : Sqe) : Prop where
  tag : ∃ pad, sqe.userData =
    encodeUserdata pad (BitVec.ofInt 16 sqe.request.ident) sqe.request.opcode.code
  group : ∀ fd group, sqe.request = .recvmsgMultishot fd group → group = bufringsConn

theorem acceptSqe_tagged (socketfd : ℤ) (answers : Answers) : (acceptSqe socketfd answers).Tagged :=
  ⟨⟨_, rfl⟩, by simp [acceptSqe]⟩

theorem recvmsgSqe_tagged (clientfd : ℤ) (answers : Answers) :
    (recvmsgSqe clientfd answers).Tagged := by
  refine ⟨⟨_, rfl⟩, ?_⟩
  intro fd group same
  cases same
  rfl

theorem writeSqe_tagged (self : Appctx) (level : LogLevel) (args : LogArgs) (answers : Answers)
    (node : ℕ) : (self.writeSqe level args answers node).Tagged :=
  ⟨⟨_, rfl⟩, by simp [Appctx.writeSqe]⟩

theorem sendSqe_tagged (ud : Userdata) (answers : Answers) : (sendSqe ud answers).Tagged := by
  have narrowed : BitVec.ofInt 16 ud.fd.toInt = ud.fd.setWidth 16 := by
    apply BitVec.eq_of_toNat_eq
    rw [BitVec.toNat_ofInt, BitVec.toNat_setWidth, BitVec.toInt_eq_toNat_cond]
    split <;> omega
  refine ⟨⟨answers.pad .sendmsg, ?_⟩, by simp [sendSqe]⟩
  rw [sendSqe, Request.ident, narrowed, Request.opcode]

namespace Completion

/-- What holds of every completion the kernel posts. -/
structure Genuine (c : Completion) : Prop where
  echo : c.cqe.userData = c.sqe.userData
  flags : c.cqe.flags = cqeFlags (c.buf.map (·.bid)) c.more
  filled : ∀ buf, c.buf = some buf → (∃ fd group, c.sqe.request = .recvmsgMultishot fd group) ∧
    (recvmsgOutSize : ℤ) ≤ c.cqe.res ∧ c.cqe.res ≤ buf.len
  unfilled : c.buf = none → ∀ fd group, c.sqe.request = .recvmsgMultishot fd group → c.cqe.res < 0
  single : c.sqe.request.opcode = .writeFixed → c.more = false

theorem Genuine.bid {c : Completion} (genuine : c.Genuine) {buf : IoUringBuf}
    (filled : c.buf = some buf) : c.cqe.bid = buf.bid := by
  rw [Cqe.bid, genuine.flags, filled]
  exact cqeFlags_shift buf.bid c.more

/-- Only messages carry buffers. -/
theorem Genuine.buf_eq_none {c : Completion} (genuine : c.Genuine)
    (other : ∀ fd group, c.sqe.request ≠ .recvmsgMultishot fd group) : c.buf = none := by
  by_contra filled
  obtain ⟨buf, same⟩ := Option.ne_none_iff_exists'.mp filled
  obtain ⟨⟨fd, group, request⟩, -, -⟩ := genuine.filled buf same
  exact other fd group request

end Completion

section Dispatch

variable {c : Completion} {self : Appctx} {answers : Answers}

theorem decoded_op (genuine : c.Genuine) (tagged : c.sqe.Tagged) :
    (userdataDecode c.cqe.userData).op = c.sqe.request.opcode.code := by
  obtain ⟨pad, tag⟩ := tagged.tag
  rw [genuine.echo, tag, userdataDecode_encode_op]

/-- The decoded identity is the recorded one modulo `2 ^ 16`. -/
theorem decoded_fd (genuine : c.Genuine) (tagged : c.sqe.Tagged) :
    ((userdataDecode c.cqe.userData).fd.toNat : ℤ) = c.sqe.request.ident % 2 ^ 16 := by
  obtain ⟨pad, tag⟩ := tagged.tag
  rw [genuine.echo, tag, userdataDecode_encode_fd, setWidth_ofInt_toNat]

theorem dispatch_eq (genuine : c.Genuine) (tagged : c.sqe.Tagged) :
    dispatch self c.cqe answers = match c.sqe.request with
      | .multishotAccept _ => appctxHandleAccept self c.cqe answers
      | .recvmsgMultishot _ _ => appctxHandleRecvmsg self c.cqe answers
      | .sendZc _ _ => .ok self
      | .writeFixed _ _ _ _ bid =>
          .ok { self with bufpool := bufpoolPut self.bufpool (bid % 2 ^ 16) } := by
  have fd := decoded_fd genuine tagged
  simp only [dispatch, decoded_op genuine tagged, Opcode.ofCode?_code]
  cases request : c.sqe.request with
  | multishotAccept _ => rfl
  | recvmsgMultishot _ _ => rfl
  | sendZc _ _ => rfl
  | writeFixed _ _ _ _ bid =>
    rw [request] at fd
    have same : ((userdataDecode c.cqe.userData).fd.setWidth 16).toNat = bid % 2 ^ 16 := by
      rw [BitVec.toNat_setWidth]
      simp only [Request.ident] at fd
      omega
    simp only [Request.opcode, same]

end Dispatch

/-- The end of an iteration: the completion is marked seen and the queue is submitted. -/
def Appctx.finish (self : Appctx) (index : ℕ) : Appctx :=
  { self with uring := ioUringSubmit (ioUringCqeSeen self.uring index) }

theorem runEventLoopIteration_ok_iff {self next : Appctx} {index : ℕ} {cqe : Cqe}
    {answers : Answers} : runEventLoopIteration self index cqe answers = .ok next ↔
      0 ≤ answers.waitCqe ∧ 0 ≤ answers.submit ∧
        ∃ branch, dispatch self cqe answers = .ok branch ∧ next = branch.finish index := by
  simp only [runEventLoopIteration, bind_ok_iff, assertPositive_ok_iff, pure_ok_iff, exists_const]
  constructor
  · rintro ⟨waited, branch, dispatched, submitted, rfl⟩
    exact ⟨waited, submitted, branch, dispatched, rfl⟩
  · rintro ⟨waited, submitted, branch, dispatched, rfl⟩
    exact ⟨waited, branch, dispatched, submitted, rfl⟩

theorem runEventLoopIteration_error_iff {self : Appctx} {index : ℕ} {cqe : Cqe}
    {answers : Answers} {stop : Stop} : runEventLoopIteration self index cqe answers = .error stop ↔
      (answers.waitCqe < 0 ∧ stop = .assertPositive answers.waitCqe) ∨
      (0 ≤ answers.waitCqe ∧ dispatch self cqe answers = .error stop) ∨
      (0 ≤ answers.waitCqe ∧ answers.submit < 0 ∧ stop = .assertPositive answers.submit ∧
        ∃ branch, dispatch self cqe answers = .ok branch) := by
  simp only [runEventLoopIteration, bind_error_iff, assertPositive_error_iff, assertPositive_ok_iff,
    pure_ne_error, and_false, exists_false, or_false, exists_const]
  constructor
  · rintro (waited | ⟨waited, failed | ⟨branch, dispatched, submitted, rfl⟩⟩)
    · exact .inl waited
    · exact .inr (.inl ⟨waited, failed⟩)
    · exact .inr (.inr ⟨waited, submitted, rfl, branch, dispatched⟩)
  · rintro (waited | ⟨waited, failed⟩ | ⟨waited, submitted, rfl, branch, dispatched⟩)
    · exact .inl waited
    · exact .inr ⟨waited, .inl failed⟩
    · exact .inr ⟨waited, .inr ⟨branch, dispatched, submitted, rfl⟩⟩

/-- What one iteration does to the context before it finishes, by the kind of request answered. -/
inductive Handled (self : Appctx) (c : Completion) (answers : Answers) : Appctx → Prop
  | write {fd : ℤ} {buf : Ptr} {nbytes offset bid : ℕ}
      (request : c.sqe.request = .writeFixed fd buf nbytes offset bid) :
      Handled self c answers { self with bufpool := bufpoolPut self.bufpool (bid % 2 ^ 16) }
  | accept {listenfd : ℤ} {first : SqeSlot} {next : Appctx}
      (request : c.sqe.request = .multishotAccept listenfd) (positive : 0 ≤ c.cqe.res)
      (ring : first.ring = self.uring)
      (logged : logEvent .debug (self.armed c.cqe.res answers first)
        (.newConnection (addrText (answers.getpeername c.cqe.res).2)) answers = .ok next)
      (peer : (answers.getpeername c.cqe.res).1 ≤ 0) : Handled self c answers next
  | recvmsg {fd : ℤ} {group : ℕ} {buf : IoUringBuf} {logged : Appctx} {second : SqeSlot}
      (request : c.sqe.request = .recvmsgMultishot fd group) (filled : c.buf = some buf)
      (log : logEvent .debug self (self.packetArgs c.cqe) answers = .ok logged)
      (ring : second.ring = (logged.recycled buf.bid answers).uring) :
      Handled self c answers { logged.recycled buf.bid answers with
        uring := second.store (sendSqe (userdataDecode c.cqe.userData) answers) }
  | send {fd : ℤ} {data : List Char} (request : c.sqe.request = .sendZc fd data) :
      Handled self c answers self

theorem handled_of_dispatch {self next : Appctx} {c : Completion} {answers : Answers}
    (genuine : c.Genuine) (tagged : c.sqe.Tagged)
    (dispatched : dispatch self c.cqe answers = .ok next) : Handled self c answers next := by
  rw [dispatch_eq genuine tagged] at dispatched
  cases request : c.sqe.request with
  | multishotAccept _ =>
    rw [request] at dispatched
    obtain ⟨positive, peer, first, ring, logged⟩ := appctxHandleAccept_ok_iff.mp dispatched
    exact .accept request positive ring logged peer
  | recvmsgMultishot fd group =>
    rw [request] at dispatched
    obtain ⟨long, logged, log, second, ring, rfl⟩ := appctxHandleRecvmsg_ok_iff.mp dispatched
    cases filled : c.buf with
    | none =>
      have negative := genuine.unfilled filled fd group request
      have size := recvmsgOutSize_nonneg
      omega
    | some buf =>
      rw [genuine.bid filled] at ring ⊢
      exact .recvmsg request filled log ring
  | sendZc _ _ =>
    rw [request] at dispatched
    cases dispatched
    exact .send request
  | writeFixed _ _ _ _ _ =>
    rw [request] at dispatched
    cases dispatched
    exact .write request

/-- What the handler of a completion logs. -/
def Appctx.logArgs (self : Appctx) (c : Completion) (answers : Answers) : List LogArgs :=
  match c.sqe.request with
  | .multishotAccept _ => [.newConnection (addrText (answers.getpeername c.cqe.res).2)]
  | .recvmsgMultishot _ _ => [self.packetArgs c.cqe]
  | .sendZc _ _ => []
  | .writeFixed _ _ _ _ _ => []

theorem Handled.log {self branch : Appctx} {c : Completion} {answers : Answers}
    (step : Handled self c answers branch) :
    branch.log.map (·.args) = self.log.map (·.args) ++ self.logArgs c answers := by
  cases step with
  | write request => simp [Appctx.logArgs, request]
  | accept request positive ring log =>
    have logged := logEvent_log log
    rw [Appctx.logArgs, request]
    exact logged
  | recvmsg request filled log ring =>
    have logged := logEvent_log log
    rw [Appctx.logArgs, request]
    exact logged
  | send request => simp [Appctx.logArgs, request]

/-- What the kernel does when it completes a live request. -/
inductive Posted (s : State) (index : ℕ) (sqe : Sqe) : State → Prop
  | accepted {listenfd fd : ℤ} {more : Bool} (request : sqe.request = .multishotAccept listenfd)
      (bounds : 0 ≤ fd ∧ fd < 2 ^ 31) (fresh : fd ∉ s.openFds) :
      Posted s index sqe
        { s.post index ⟨⟨sqe.userData, fd, cqeFlags none more⟩, sqe, none, more⟩ with
          openFds := fd :: s.openFds }
  | received {fd : ℤ} {group : ℕ} {ringIndex : Fin bufringCount} {buf : IoUringBuf}
      {br : IoUringBufRing} {payload : List Char} {more : Bool}
      (request : sqe.request = .recvmsgMultishot fd group)
      (found : s.ringOfGroup group = some ringIndex)
      (taken : (s.app.bufrings ringIndex).br.take?
        (ioUringBufRingMask (s.app.bufrings ringIndex).params.entries) = some (buf, br))
      (fits : (State.recvmsgOut payload ++ payload).length ≤ buf.len) :
      Posted s index sqe
        ({ s with app := { s.app with
          memory := s.app.memory.write buf.addr (State.recvmsgOut payload ++ payload)
          bufrings := Function.update s.app.bufrings ringIndex
            { s.app.bufrings ringIndex with br := br } } }.post index
          ⟨⟨sqe.userData, (State.recvmsgOut payload ++ payload).length,
            cqeFlags (some buf.bid) more⟩, sqe, some buf, more⟩)
  | written {fd : ℤ} {buf : Ptr} {nbytes offset bufIndex : ℕ}
      (request : sqe.request = .writeFixed fd buf nbytes offset bufIndex) :
      Posted s index sqe
        { s.post index ⟨⟨sqe.userData, nbytes, cqeFlags none false⟩, sqe, none, false⟩ with
          file := pwrite nul s.file offset (s.app.memory.read buf nbytes)
          written := s.written ++ [s.app.memory.read buf nbytes] }
  | ended {res : ℤ} {more : Bool} (allowed : State.endsWith sqe.request res more = true) :
      Posted s index sqe (s.post index ⟨⟨sqe.userData, res, cqeFlags none more⟩, sqe, none, more⟩)

namespace Posted

variable {s next : State} {index : ℕ} {sqe : Sqe}

/-! What the kernel leaves alone when it completes a request. -/

theorem handled (posted : Posted s index sqe next) : next.handled = s.handled := by
  cases posted <;> rfl

theorem stop (posted : Posted s index sqe next) : next.stop = s.stop := by
  cases posted <;> rfl

theorem log (posted : Posted s index sqe next) : next.app.log = s.app.log := by
  cases posted <;> rfl

theorem fmtAddr (posted : Posted s index sqe next) : next.app.fmtAddr = s.app.fmtAddr := by
  cases posted <;> rfl

theorem bufpool (posted : Posted s index sqe next) : next.app.bufpool = s.app.bufpool := by
  cases posted <;> rfl

end Posted

theorem posted_of_complete? {s next : State} {index : ℕ} {outcome : Outcome}
    (completed : s.complete? index outcome = some next) :
    ∃ sqe, s.app.uring.live[index]? = some sqe ∧ Posted s index sqe next := by
  simp only [State.complete?, bind, Option.bind_eq_some_iff] at completed
  obtain ⟨sqe, found, completed⟩ := completed
  refine ⟨sqe, found, ?_⟩
  split at completed
  · next request =>
    simp only [State.accept?] at completed
    split_ifs at completed with allowed
    cases completed
    exact .accepted request ⟨allowed.1, allowed.2.1⟩ allowed.2.2
  · next request =>
    simp only [State.receive?, bind, Option.bind_eq_some_iff, Prod.exists] at completed
    obtain ⟨ringIndex, group, buf, br, taken, completed⟩ := completed
    split_ifs at completed with fits
    cases completed
    exact .received request group taken fits
  · next request =>
    simp only [State.write?] at completed
    split_ifs at completed
    cases completed
    exact .written request
  · split_ifs at completed with allowed
    cases completed
    exact .ended allowed
  · cases completed

end UringServer
