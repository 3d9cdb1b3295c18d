import UringServer.Model.BufRing
import UringServer.Model.Userdata
import Mathlib.Data.List.Perm.Basic

/-! # Submission and completion queues

The submission queue is recorded as everything ever queued, cut by two free-running positions:
entries before `khead` were consumed by the polling thread, entries before `ktail` are published.
A consumed request stays live until the kernel posts its last completion. The program sees a
completion's `cqe` only; which request it answers and which buffer the kernel filled is kept
beside it.
-/

namespace UringServer

/-- What a submission asks for. -/
inductive Request where
  | multishotAccept (fd : ℤ)
  | recvmsgMultishot (fd : ℤ) (bufGroup : ℕ)
  | sendZc (fd : ℤ) (buf : List Char)
  | writeFixed (fd : ℤ) (buf : Ptr) (nbytes offset bufIndex : ℕ)
deriving DecidableEq, Repr

/-- `struct io_uring_sqe`. -/
structure Sqe where
  request : Request
  userData : BitVec 64
deriving DecidableEq, Repr

/-- `struct io_uring_cqe`. -/
structure Cqe where
  userData : BitVec 64
  res : ℤ
  flags : ℕ
deriving DecidableEq, Repr

/-- `IORING_CQE_BUFFER_SHIFT`. -/
def ioringCqeBufferShift : ℕ := 16

/-- Completion flags: `IORING_CQE_F_BUFFER` with the id above the shift, `IORING_CQE_F_MORE`. -/
def cqeFlags (bid : Option ℕ) (more : Bool) : ℕ :=
  (match bid with
    | some bid => bid <<< ioringCqeBufferShift ||| 1
    | none => 0) ||| if more then 2 else 0

/-- A completion together with the request it answers and the buffer it used. -/
structure Completion where
  cqe : Cqe
  sqe : Sqe
  buf : Option IoUringBuf
  more : Bool
deriving DecidableEq, Repr

/-- The size `appctx_init` asks for. -/
def sqEntries : ℕ := 16

/-- `struct io_uring` with the requests behind it. -/
structure IoUring where
  sqes : List Sqe
  khead : ℕ
  ktail : ℕ
  live : List Sqe
  cq : List Completion
  khead_le : khead ≤ ktail
  ktail_le : ktail ≤ sqes.length
  room : sqes.length ≤ khead + sqEntries

/-- The rings that `io_uring_queue_init_params` sets up. -/
def ioUringQueueInit : IoUring := ⟨[], 0, 0, [], [], le_rfl, le_rfl, by decide⟩

/-- A queue entry handed out by `io_uring_get_sqe`: a queue with room for it. -/
structure SqeSlot where
  ring : IoUring
  free : ring.sqes.length < ring.khead + sqEntries

/-- `io_uring_get_sqe`: null when no entry of the ring is free. -/
def ioUringGetSqe (ring : IoUring) : Option SqeSlot :=
  if free : ring.sqes.length < ring.khead + sqEntries then some ⟨ring, free⟩ else none

/-- Prepare the entry handed out. -/
def SqeSlot.store (slot : SqeSlot) (sqe : Sqe) : IoUring :=
  { slot.ring with
    sqes := slot.ring.sqes ++ [sqe]
    ktail_le := by have := slot.ring.ktail_le; simp only [List.length_append]; omega
    room := by have := slot.free; simp only [List.length_append, List.length_singleton]; omega }

/-- `io_uring_submit` under `IORING_SETUP_SQPOLL`: publish what is queued, wait for nothing. -/
def ioUringSubmit (ring : IoUring) : IoUring :=
  { ring with
    ktail := ring.sqes.length
    khead_le := ring.khead_le.trans ring.ktail_le
    ktail_le := le_rfl }

/-- `io_uring_cqe_seen` for the completion at `index`. -/
def ioUringCqeSeen (ring : IoUring) (index : ℕ) : IoUring :=
  { ring with cq := ring.cq.eraseIdx index }

namespace IoUring

/-- Entries queued and not consumed, oldest first. -/
def unconsumed (ring : IoUring) : List Sqe := ring.sqes.drop ring.khead

/-- Requests that will still act: queued or live in the kernel. -/
def armed (ring : IoUring) : List Sqe := ring.unconsumed ++ ring.live

/-- How many published entries the polling thread consumes when it is asked for `count`. -/
def pollable (ring : IoUring) (count : ℕ) : ℕ := min count (ring.ktail - ring.khead)

/-- The polling thread consumes up to `count` published entries. -/
def poll (ring : IoUring) (count : ℕ) : IoUring :=
  { ring with
    khead := ring.khead + ring.pollable count
    live := ring.live ++ ring.unconsumed.take (ring.pollable count)
    khead_le := by have := ring.khead_le; unfold pollable; omega
    room := by have := ring.room; omega }

/-- The kernel posts a completion of the live request at `index`; without `IORING_CQE_F_MORE` it
is the last one. -/
def post (ring : IoUring) (index : ℕ) (completion : Completion) : IoUring :=
  { ring with
    live := if completion.more then ring.live else ring.live.eraseIdx index
    cq := ring.cq ++ [completion] }

end IoUring

/-- The buffer id survives the way through the completion flags. -/
theorem cqeFlags_shift (bid : ℕ) (more : Bool) :
    cqeFlags (some bid) more >>> ioringCqeBufferShift = bid := by
  cases more <;> simp [cqeFlags, ioringCqeBufferShift, Nat.shiftRight_or_distrib]

theorem ioUringGetSqe_eq_none_iff (ring : IoUring) :
    ioUringGetSqe ring = none ↔ ring.unconsumed.length = sqEntries := by
  have := ring.room
  have := ring.khead_le
  have := ring.ktail_le
  unfold ioUringGetSqe IoUring.unconsumed
  rw [List.length_drop]
  split
  · simp; omega
  · simp; omega

theorem ioUringGetSqe_eq_some_iff {ring : IoUring} {slot : SqeSlot} :
    ioUringGetSqe ring = some slot ↔ slot.ring = ring := by
  unfold ioUringGetSqe
  constructor
  · intro found
    split at found
    · cases found; rfl
    · cases found
  · rintro rfl
    rw [dif_pos slot.free]

namespace IoUring

theorem unconsumed_length_le (ring : IoUring) : ring.unconsumed.length ≤ sqEntries := by
  have := ring.room
  rw [unconsumed, List.length_drop]
  omega

@[simp] theorem store_unconsumed (slot : SqeSlot) (sqe : Sqe) :
    (slot.store sqe).unconsumed = slot.ring.unconsumed ++ [sqe] := by
  exact List.drop_append_of_le_length (slot.ring.khead_le.trans slot.ring.ktail_le)

theorem store_armed (slot : SqeSlot) (sqe : Sqe) :
    (slot.store sqe).armed.Perm (sqe :: slot.ring.armed) := by
  rw [armed, store_unconsumed, List.append_assoc]
  exact List.perm_middle

/-- Consuming entries moves requests into the kernel; none is lost or doubled. -/
theorem poll_armed (ring : IoUring) (count : ℕ) : (ring.poll count).armed.Perm ring.armed := by
  have split : ring.unconsumed =
      ring.unconsumed.take (ring.pollable count) ++ (ring.poll count).unconsumed := by
    rw [unconsumed, unconsumed, show (ring.poll count).khead = ring.khead + ring.pollable count from rfl,
      show (ring.poll count).sqes = ring.sqes from rfl, ← List.drop_drop, List.take_append_drop]
  rw [armed, armed, split, show (ring.poll count).live =
    ring.live ++ ring.unconsumed.take (ring.pollable count) from rfl]
  generalize ring.unconsumed.take (ring.pollable count) = moved
  rw [← List.append_assoc]
  refine List.perm_append_comm.trans ?_
  rw [List.append_assoc]

theorem poll_unconsumed_length (ring : IoUring) (count : ℕ) :
    (ring.poll count).unconsumed.length + ring.pollable count = ring.unconsumed.length := by
  have := ring.khead_le
  have := ring.ktail_le
  simp only [unconsumed, poll, List.length_drop, pollable]
  omega

/-- A last completion takes its request out of the armed ones. -/
theorem post_armed (ring : IoUring) {index : ℕ} {completion : Completion} {sqe : Sqe}
    (found : ring.live[index]? = some sqe) :
    ((if completion.more then [] else [sqe]) ++ (ring.post index completion).armed).Perm ring.armed := by
  obtain ⟨bound, rfl⟩ := List.getElem?_eq_some_iff.mp found
  cases last : completion.more with
  | true => simp [armed, post, last, unconsumed]
  | false =>
    have erased : (ring.post index completion).live = ring.live.eraseIdx index := by
      simp [post, last]
    rw [armed, armed, erased]
    refine (@List.perm_middle _ _ ring.unconsumed _).symm.trans ?_
    exact (List.getElem_cons_eraseIdx_perm bound).append_left ring.unconsumed

end IoUring

end UringServer
