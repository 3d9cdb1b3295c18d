import UringServer.Model.Appctx

/-! # Start-up and the event loop

`main` initialises the context, opens the listening socket, queues the multishot accept and four
log lines, submits, and enters `run_event_loop`. One iteration takes one completion, branches on
its decoded operation, marks it seen and submits what the branch queued.
-/

namespace UringServer

open Fallible

/-- Results of the calls made before the loop, the descriptors open by then, and the contents that
the allocators leave in fresh memory. -/
structure Setup where
  queueInitParams : ℤ
  registerBuffers : ℤ
  posixMemalign : Fin bufringCount → ℤ
  registerBufRing : Fin bufringCount → ℤ
  socketfd : ℤ
  setsockopt : ℤ
  bind : ℤ
  listen : ℤ
  openFds : List ℤ
  iovecs : ℕ → Iovec
  freebs : ℕ → BufpoolFreebuf
  br : Fin bufringCount → IoUringBufRing
  bufs : Fin bufringCount → ℕ → Iovec
  memory : Memory

/-- `appctx_init`. -/
def appctxInit (setup : Setup) (bufringParams : Fin bufringCount → BufringInitParams)
    (bufpoolSize : ℕ) : Except Stop Appctx := do
  assertPositive setup.queueInitParams
  let bufpool ← bufpoolInit setup.registerBuffers setup.iovecs setup.freebs loggingBufsize bufpoolSize
  let bufring (index : Fin bufringCount) := bufringInit index (setup.posixMemalign index)
    (setup.registerBufRing index) (setup.br index) (setup.bufs index) (bufringParams index)
  let conn ← bufring 0
  let spare ← bufring 1
  return {
    uring := ioUringQueueInit
    bufpool := bufpool
    bufrings := fun index => if index = 0 then conn else spare
    fmtAddr := []
    memory := setup.memory
    log := [] }

/-- `main` up to the call of `listen`. -/
def mainSetup (setup : Setup) (bufringParams : Fin bufringCount → BufringInitParams)
    (bufpoolSize : ℕ) : Except Stop Appctx := do
  let appctx ← appctxInit setup bufringParams bufpoolSize
  assertPositive setup.socketfd
  assertPositive setup.setsockopt
  assertPositive setup.bind
  assertPositive setup.listen
  return appctx

/-- `main` queues the multishot accept. -/
def mainAccept (socketfd : ℤ) (appctx : Appctx) (answers : Answers) : Except Stop Appctx := do
  let sqe ← assertNotNull .sqe (ioUringGetSqe appctx.uring)
  return { appctx with
    uring := sqe.store ⟨.multishotAccept socketfd,
      encodeUserdata (answers.pad .accept) (BitVec.ofInt 16 socketfd) Opcode.accept.code⟩ }

/-- `main` submits what it queued. -/
def mainSubmit (appctx : Appctx) (answers : Answers) : Except Stop Appctx := do
  let appctx := { appctx with uring := ioUringSubmit appctx.uring }
  assertPositive answers.submit
  return appctx

/-- The `switch` of `run_event_loop`. -/
def dispatch (self : Appctx) (cqe : Cqe) (answers : Answers) : Except Stop Appctx :=
  let ud := userdataDecode cqe.userData
  match Opcode.ofCode? ud.op with
  | some .listen => .ok self
  | some .write => .ok self
  | some .writeFixed =>
      let bid := (ud.fd.setWidth 16).toNat
      .ok { self with bufpool := bufpoolPut self.bufpool bid }
  | some .accept => appctxHandleAccept self cqe answers
  | some .recvmsg => appctxHandleRecvmsg self cqe answers
  | _ => .ok self

/-- One iteration of `run_event_loop`, on the completion at `index` of the completion queue. -/
def runEventLoopIteration (self : Appctx) (index : ℕ) (cqe : Cqe) (answers : Answers) :
    Except Stop Appctx := do
  assertPositive answers.waitCqe
  let self ← dispatch self cqe answers
  let self := { self with uring := ioUringSubmit (ioUringCqeSeen self.uring index) }
  assertPositive answers.submit
  return self

end UringServer
