import UringServer.Model.EventLoop
import UringServer.Lib.PositionalFile
import UringServer.Lib.Replay

/-! # The server and its kernel as one event machine

Events are the steps of the program (the statements of `main` after `listen`, then iterations of
the loop) and the steps of the kernel (the polling thread, completions). The kernel chooses
everything about its completions that its interface leaves open: their order, the descriptors it
hands out, the errors, and which completion of a multishot request is the last.
-/

namespace UringServer

open Fallible PositionalFile Replay

/-- The arguments of `appctx_init` in `main` and the answers to the calls before the loop, with
what a successful registration tells about the arguments. -/
structure Config where
  bufringParams : Fin bufringCount → BufringInitParams
  bufpoolSize : ℕ
  setup : Setup
  ring_registered : ∀ index, 0 ≤ setup.registerBufRing index →
    ∃ k ≤ 15, (bufringParams index).entries = 2 ^ k
  pool_registered : 0 ≤ setup.registerBuffers → 1 ≤ bufpoolSize ∧ bufpoolSize ≤ 2 ^ 14
  conn_bgid : (bufringParams bufringsConn).bgid = bufringsConn

/-- The rings that `main` asks for. -/
def mainBufringParams (index : Fin bufringCount) : BufringInitParams :=
  if index = bufringsConn then
    { entries := 16
      entrySize := 1024
      bgid := 0 }
  else
    { entries := 16
      entrySize := 512
      bgid := 1 }

/-- The configuration of `main`: its two rings and a pool of 16 log buffers. -/
def mainConfig (setup : Setup) : Config where
  bufringParams := mainBufringParams
  bufpoolSize := 16
  setup := setup
  ring_registered index _ := ⟨4, by decide, by unfold mainBufringParams; split <;> rfl⟩
  pool_registered _ := by decide
  conn_bgid := rfl

/-- What the kernel does to a live request. -/
inductive Outcome where
  /-- A connection was accepted as descriptor `fd`. -/
  | accepted (fd : ℤ) (more : Bool)
  /-- A message was received into the next provided buffer. -/
  | received (payload : List Char) (more : Bool)
  /-- A fixed write stored all its bytes. One that stores only some of them is left out. -/
  | written
  /-- The request completes without data, with an error or with the result of a send. -/
  | ended (res : ℤ) (more : Bool)
deriving DecidableEq, Repr

/-- A step of the program or of the kernel. -/
inductive Event where
  /-- `main` queues the multishot accept. -/
  | mainAccept (answers : Answers)
  /-- `main` logs a line. -/
  | mainLog (level : LogLevel) (fmt : List Char) (answers : Answers)
  /-- `main` submits. -/
  | mainSubmit (answers : Answers)
  /-- The polling thread consumes published entries. -/
  | poll (count : ℕ)
  /-- The kernel completes the live request at `index`. -/
  | complete (index : ℕ) (outcome : Outcome)
  /-- One iteration of the loop, on the completion at `index`. Waiting that fails while there is none is
  left out. -/
  | iterate (index : ℕ) (answers : Answers)

/-- The program, its completions handled so far, and the kernel's side: open descriptors, the file
behind stderr and the data of the fixed writes done to it, oldest first. What `ASSERT_POSITIVE` and
`ASSERT_NOT_NULL` print before they end the process is not part of the two. -/
structure State where
  app : Appctx
  handled : List Completion
  openFds : List ℤ
  file : List Char
  written : List (List Char)
  stop : Option Stop

namespace State

/-- Continue with the context a step of the program computed, or stop. -/
def proceed (s : State) : Except Stop Appctx → State
  | .ok app => { s with app := app }
  | .error stop => { s with stop := some stop }

/-- The four bytes of a `__u32`, low byte first. -/
def bytes32 (n : ℕ) : List Char := (List.range 4).map fun i => Char.ofNat (n / 256 ^ i % 256)

/-- `struct io_uring_recvmsg_out` in front of a payload: no name, no control data, no flags. -/
def recvmsgOut (payload : List Char) : List Char :=
  bytes32 0 ++ bytes32 0 ++ bytes32 payload.length ++ bytes32 0

/-- Post a completion of the live request at `index`. -/
def post (s : State) (index : ℕ) (completion : Completion) : State :=
  { s with app := { s.app with uring := s.app.uring.post index completion } }

/-- The kernel accepts a connection under a descriptor that is not open. -/
def accept? (s : State) (index : ℕ) (sqe : Sqe) (fd : ℤ) (more : Bool) : Option State :=
  if 0 ≤ fd ∧ fd < 2 ^ 31 ∧ fd ∉ s.openFds then
    some { s.post index ⟨⟨sqe.userData, fd, cqeFlags none more⟩, sqe, none, more⟩ with
      openFds := fd :: s.openFds }
  else none

/-- The ring registered under a group id. -/
def ringOfGroup (s : State) (group : ℕ) : Option (Fin bufringCount) :=
  (List.finRange bufringCount).find? fun index => (s.app.bufrings index).params.bgid == group

/-- The kernel receives a message into the buffer at the head of the group's ring. -/
def receive? (s : State) (index : ℕ) (sqe : Sqe) (group : ℕ) (payload : List Char) (more : Bool) :
    Option State := do
  let ringIndex ← s.ringOfGroup group
  let ring := s.app.bufrings ringIndex
  let (buf, br) ← ring.br.take? (ioUringBufRingMask ring.params.entries)
  let data := recvmsgOut payload ++ payload
  if data.length ≤ buf.len then
    some ({ s with app := { s.app with
      memory := s.app.memory.write buf.addr data
      bufrings := Function.update s.app.bufrings ringIndex { ring with br := br } } }.post index
        ⟨⟨sqe.userData, data.length, cqeFlags (some buf.bid) more⟩, sqe, some buf, more⟩)
  else none

/-- The kernel executes a fixed write whose range lies in the registered buffer. -/
def write? (s : State) (index : ℕ) (sqe : Sqe) (buf : Ptr) (nbytes offset bufIndex : ℕ) :
    Option State :=
  let iov := s.app.bufpool.iovecs bufIndex
  if buf.block = iov.iovBase.block ∧ iov.iovBase.offset ≤ buf.offset ∧
      buf.offset + nbytes ≤ iov.iovBase.offset + iov.iovLen then
    let data := s.app.memory.read buf nbytes
    some { s.post index ⟨⟨sqe.userData, nbytes, cqeFlags none false⟩, sqe, none, false⟩ with
      file := pwrite nul s.file offset data
      written := s.written ++ [data] }
  else none

/-- The completions that carry no data: errors of the multishot requests, any result of a send,
and a single one of a write. -/
def endsWith (request : Request) (res : ℤ) (more : Bool) : Bool :=
  match request with
  | .multishotAccept _ => res < 0
  | .recvmsgMultishot _ _ => res < 0
  | .sendZc _ _ => true
  | .writeFixed _ _ _ _ _ => !more

/-- The kernel completes the live request at `index`. -/
def complete? (s : State) (index : ℕ) (outcome : Outcome) : Option State := do
  let sqe ← s.app.uring.live[index]?
  match sqe.request, outcome with
  | .multishotAccept _, .accepted fd more => s.accept? index sqe fd more
  | .recvmsgMultishot _ group, .received payload more => s.receive? index sqe group payload more
  | .writeFixed _ buf nbytes offset bufIndex, .written =>
      s.write? index sqe buf nbytes offset bufIndex
  | request, .ended res more =>
      if endsWith request res more then
        some (s.post index ⟨⟨sqe.userData, res, cqeFlags none more⟩, sqe, none, more⟩)
      else none
  | _, _ => none

/-- One iteration of the loop; a completion counts as handled when the iteration ends. -/
def iterate (s : State) (index : ℕ) (completion : Completion) (answers : Answers) : State :=
  match runEventLoopIteration s.app index completion.cqe answers with
  | .ok app => { s with app := app, handled := s.handled ++ [completion] }
  | .error stop => { s with stop := some stop }

/-- The state in which `main` has set up everything up to `listen`. -/
def initial (cfg : Config) : Except Stop State := do
  let app ← mainSetup cfg.setup cfg.bufringParams cfg.bufpoolSize
  return ⟨app, [], cfg.setup.openFds, [], [], none⟩

end State

/-- One step. A stopped process takes none. -/
def step? (cfg : Config) (s : State) (event : Event) : Option State :=
  if s.stop.isSome then none
  else match event with
    | .mainAccept answers => some (s.proceed (mainAccept cfg.setup.socketfd s.app answers))
    | .mainLog level fmt answers => some (s.proceed (logEvent level s.app (.text fmt) answers))
    | .mainSubmit answers => some (s.proceed (mainSubmit s.app answers))
    | .poll count => some { s with app := s.app.poll count }
    | .complete index outcome => s.complete? index outcome
    | .iterate index answers =>
        s.app.uring.cq[index]?.map fun completion => s.iterate index completion answers

/-- The events that `main` goes through before the loop. -/
def mainEvents (answers : Fin 6 → Answers) : List Event :=
  [.mainAccept (answers 0),
    .mainLog .debug "Server starting 1...".toList (answers 1),
    .mainLog .info "Server starting 2...".toList (answers 2),
    .mainLog .warn "Server starting 3...".toList (answers 3),
    .mainLog .error "Server starting 4...".toList (answers 4),
    .mainSubmit (answers 5)]

/-- The events of a server that is in its loop. -/
def Event.inLoop : Event → Bool
  | .mainAccept _ | .mainLog _ _ _ | .mainSubmit _ => false
  | .poll _ | .complete _ _ | .iterate _ _ => true

/-- A run of the server as started by `main`: its start-up, then events of the loop only. -/
structure ServerRun (cfg : Config) (answers : Fin 6 → Answers) (events : List Event) (s : State) :
    Prop where
  inLoop : ∀ event ∈ events, event.inLoop
  reached : ∃ first, State.initial cfg = .ok first ∧
    run? (step? cfg) first (mainEvents answers ++ events) = some s

end UringServer
