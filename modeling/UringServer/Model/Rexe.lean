import UringServer.Model.EventLoop
import UringServer.Model.Server

/-! # The reader in Rust

`rexe` links the same library. It sets up the context that `main` of the server sets up, reads once from
stdin into a log buffer and prints what it read. It checks nothing that the library does not check: the
results of `io_uring_submit` and `io_uring_wait_cqe` are dropped, and pointers are used as they come.
-/

namespace UringServer

/-- `io_uring_prep_read_fixed`. -/
structure ReadFixed where
  fd : ℤ
  buf : Ptr
  nbytes : ℕ
  offset : ℕ
  bufIndex : ℕ
deriving DecidableEq, Repr

/-- What `io_uring_wait_cqe` leaves: no completion, one with an error, or one of a read that stored
its data. -/
inductive ReadAnswer where
  | missing
  | failed (res : ℤ)
  | stored (data : List UInt8)
deriving DecidableEq

/-- Why the reader ends without printing. -/
inductive RexeStop where
  | library (stop : Stop)
  | nullSqe
  | nullRegbuf
  | nullCqe
  /-- `from_raw_parts` of a negative length. -/
  | invalidSlice
  /-- `unwrap` of an error of `from_utf8`. -/
  | invalidUtf8
deriving DecidableEq

/-- A byte as the character of its code, and back. -/
def charOfByte (byte : UInt8) : Char := Char.ofNat byte.toNat

def byteOfChar (c : Char) : UInt8 := UInt8.ofNat c.toNat

/-- Use a pointer that is not checked. -/
def deref {α : Type} (stop : RexeStop) : Option α → Except RexeStop α
  | none => .error stop
  | some value => .ok value

/-- `appctx_init` as `rexe` calls it. -/
def rexeInit (setup : Setup) : Except RexeStop Appctx :=
  match appctxInit setup mainBufringParams 16 with
  | .ok appctx => .ok appctx
  | .error stop => .error (.library stop)

/-- `main` of `rexe` up to the submission: the context and the read that it queues. -/
def rexeRead (setup : Setup) : Except RexeStop (Appctx × ReadFixed) := do
  let appctx ← rexeInit setup
  let _ ← deref .nullSqe (ioUringGetSqe appctx.uring)
  let (regbuf, bufpool) ← deref .nullRegbuf (bufpoolPop appctx.bufpool)
  let logBuf := (bufpool.iovecs regbuf.iov).iovBase
  let bid := regbuf.bid
  return ({ appctx with bufpool := bufpool }, ⟨0, logBuf, loggingBufsize, 0, bid⟩)

/-- The text in the `res` bytes at `logBuf`. -/
def rexeText (memory : Memory) (logBuf : Ptr) (res : ℤ) : Except RexeStop String :=
  if res < 0 then .error .invalidSlice
  else
    let v := (memory.read logBuf res.toNat).map byteOfChar
    match String.fromUTF8? v.toByteArray with
    | none => .error .invalidUtf8
    | some s => .ok s

/-- The line that is printed. -/
def userEntered (s : String) : String := "User entered: " ++ s ++ "\n"

/-- `main` of `rexe`, with what it prints. -/
def rexeMain (setup : Setup) (answer : ReadFixed → ReadAnswer) : Except RexeStop String := do
  let (appctx, read) ← rexeRead setup
  let s ← match answer read with
    | .missing => .error .nullCqe
    | .failed res => rexeText appctx.memory read.buf res
    | .stored data =>
        rexeText (appctx.memory.write read.buf (data.map charOfByte)) read.buf data.length
  return userEntered s

end UringServer
