import UringServer.Model.BufPool
import UringServer.Model.Logging
import UringServer.Model.Uring

/-! # The application context and its handlers

`Appctx` is `struct appctx_t` together with the process state its functions share: the global
`fmt_addr`, the memory behind the buffers, and a record of the calls of `log_event`. What the
environment decides during a call comes in as `Answers`. The polling thread may consume published
entries between the two queue entries a handler asks for.
-/

namespace UringServer

open Fallible

/-- What the kernel, the C library and uninitialised memory contribute to one step of the program.
`getpeername` gives its result for a descriptor and what it leaves in the address, `consumed` counts
entries taken by the polling thread, `pad` is the padding of `struct userdata`. -/
structure Answers where
  waitCqe : ℤ
  submit : ℤ
  getpeername : ℤ → ℤ × SockaddrIn
  now : Timestamp
  consumed : ℕ
  pad : Opcode → BitVec 24

/-- One call of `log_event` that queued its line. -/
structure LogRecord where
  level : LogLevel
  args : LogArgs
  bid : ℕ
  line : List Char
deriving DecidableEq, Repr

/-- `struct appctx_t` with the process state around it. -/
structure Appctx where
  uring : IoUring
  bufpool : Bufpool
  bufrings : Fin bufringCount → Bufring
  fmtAddr : List Char
  memory : Memory
  log : List LogRecord

/-- `BUFRINGS_CONN`: the index of the ring for connections, also used as its group id. -/
def bufringsConn : Fin bufringCount := ⟨0, by decide⟩

/-- `STDERR_FILENO`. -/
def stderrFileno : ℤ := 2

/-- `MESSAGE`. -/
def message : List Char := "Hello, World!\n".toList

/-- The polling thread consumes entries while a handler runs. -/
def Appctx.poll (self : Appctx) (count : ℕ) : Appctx := { self with uring := self.uring.poll count }

/-- `log_event`. -/
def logEvent (level : LogLevel) (self : Appctx) (args : LogArgs) (answers : Answers) :
    Except Stop Appctx := do
  let scratch1 := formatTimestamp answers.now
  let scratch2 := (snprintf loggingBufsize (args.expand self.memory)).1
  let (regbuf, bufpool) ← assertNotNull .regbuf (bufpoolPop self.bufpool)
  let logBuf := (bufpool.iovecs regbuf.iov).iovBase
  let bid := regbuf.bid
  let line := logLine level bid scratch1 scratch2
  let printed := snprintf loggingBufsize line
  let sqe ← assertNotNull .sqe (ioUringGetSqe self.uring)
  return { self with
    uring := sqe.store ⟨.writeFixed stderrFileno logBuf printed.2 0 bid,
      encodeUserdata (answers.pad .writeFixed) (BitVec.ofNat 16 bid) Opcode.writeFixed.code⟩
    bufpool := bufpool
    memory := self.memory.write logBuf (printed.1 ++ [nul])
    log := self.log ++ [⟨level, args, bid, line⟩] }

/-- `appctx_handle_accept`. -/
def appctxHandleAccept (self : Appctx) (cqe : Cqe) (answers : Answers) : Except Stop Appctx := do
  let clientfd := cqe.res
  assertPositive clientfd
  let sqe ← useSqe (ioUringGetSqe self.uring)
  let uring := sqe.store ⟨.recvmsgMultishot clientfd bufringsConn,
    encodeUserdata (answers.pad .recvmsg) (BitVec.ofInt 16 clientfd) Opcode.recvmsg.code⟩
  let fmtAddr ← formatInetAddrFromSockfd answers.getpeername clientfd fmtAddrlen
  logEvent .debug ({ self with uring := uring, fmtAddr := fmtAddr }.poll answers.consumed)
    (.newConnection fmtAddr) answers

/-- The lengths of `struct msghdr` that `io_uring_recvmsg_*` consult. -/
structure Msghdr where
  msgNamelen : ℕ
  msgControllen : ℕ

/-- `sizeof(struct io_uring_recvmsg_out)`. -/
def recvmsgOutSize : ℕ := 16

/-- Where the payload of a received message starts behind its header. -/
def Msghdr.payloadOffset (msgh : Msghdr) : ℕ :=
  recvmsgOutSize + msgh.msgNamelen + msgh.msgControllen

/-- `io_uring_recvmsg_validate`: null when the message is shorter than its header. -/
def ioUringRecvmsgValidate (buf : Ptr) (bufLen : ℤ) (msgh : Msghdr) : Option Ptr :=
  if bufLen < 0 ∨ bufLen < msgh.payloadOffset then none else some buf

/-- `io_uring_recvmsg_payload`. -/
def ioUringRecvmsgPayload (out : Ptr) (msgh : Msghdr) : Ptr := out.add msgh.payloadOffset

/-- `io_uring_recvmsg_payload_length`. -/
def ioUringRecvmsgPayloadLength (bufLen : ℤ) (msgh : Msghdr) : ℤ := bufLen - msgh.payloadOffset

/-- How `appctx_handle_recvmsg` gives buffer `bid` back: added at the offset `bid` from the tail,
then published by advancing the tail over one slot. -/
def Bufring.recycle (self : Bufring) (bid : ℕ) : Bufring :=
  { self with
    br := ioUringBufRingAdvance
      (ioUringBufRingAdd self.br (self.bufs bid).iovBase (self.bufs bid).iovLen bid
        (ioUringBufRingMask self.params.entries) bid) 1 }

/-- `appctx_handle_recvmsg`. -/
def appctxHandleRecvmsg (self : Appctx) (cqe : Cqe) (answers : Answers) : Except Stop Appctx := do
  let msg : Msghdr := ⟨0, 0⟩
  let ud := userdataDecode cqe.userData
  let bid := cqe.flags >>> ioringCqeBufferShift
  let msglen := cqe.res
  assertPositive msglen
  let ring := self.bufrings bufringsConn
  let out ← assertNotNull .out (ioUringRecvmsgValidate (ring.bufs bid).iovBase msglen msg)
  let buf := ioUringRecvmsgPayload out msg
  let len := ioUringRecvmsgPayloadLength msglen msg
  let self ← logEvent .debug self (.packetFrom self.fmtAddr bid msglen len buf) answers
  let self := { self with bufrings := Function.update self.bufrings bufringsConn (ring.recycle bid) }
  let self := self.poll answers.consumed
  let sqe ← useSqe (ioUringGetSqe self.uring)
  return { self with
    uring := sqe.store ⟨.sendZc ud.fd.toInt message,
      encodeUserdata (answers.pad .sendmsg) (ud.fd.setWidth 16) Opcode.sendmsg.code⟩ }

end UringServer
