import UringServer.Proofs.Conversation
import UringServer.Proofs.StderrContents

/-! # When the kernel can serve a request

A message needs a provided buffer, and all that limits it is the number of messages that were not
handled yet and the size of one buffer. A log write needs a range inside its registered buffer, and all
that limits it is the length of its line. Neither depends on what happened before.
-/

namespace UringServer

open Fallible Replay

/-- A ring gives out a buffer unless it is empty. -/
theorem IoUringBufRing.take?_isSome_iff {br : IoUringBufRing} {mask : ℕ} :
    (br.take? mask).isSome ↔ br.available ≠ 0 := by
  have empty : br.available = 0 ↔ br.head = br.tail := by
    have := br.head.isLt
    have := br.tail.isLt
    have same : br.head = br.tail ↔ br.head.toNat = br.tail.toNat := BitVec.toNat_inj.symm
    rw [same, available, BitVec.toNat_sub]
    omega
  rw [ne_eq, empty, take?]
  split <;> simp [*]

section Serves

variable {cfg : Config} {s : State} {index : ℕ}

/-- Completions only happen to a running process. -/
theorem step?_complete_isSome_iff {outcome : Outcome} : (step? cfg s (.complete index outcome)).isSome ↔
    s.stop = none ∧ (s.complete? index outcome).isSome := by
  cases running : s.stop <;> simp [step?, running]

/-- The connection ring gives out a buffer as long as fewer messages than it has entries are waiting to be
handled. -/
theorem Reachable.take?_isSome_iff (reachable : Reachable cfg s) :
    (s.conn.br.take? (ioUringBufRingMask s.conn.params.entries)).isSome ↔
      s.heldBufs.length < (cfg.bufringParams bufringsConn).entries := by
  have occupied := reachable.ringInvariant.occupied
  rw [IoUringBufRing.take?_isSome_iff]
  omega

/-- All buffers of the connection ring have one size. -/
theorem Reachable.headBuf_len (reachable : Reachable cfg s) {buf : IoUringBuf} {br : IoUringBufRing}
    (taken : s.conn.br.take? (ioUringBufRingMask s.conn.params.entries) = some (buf, br)) :
    buf.len = (cfg.bufringParams bufringsConn).entrySize := by
  have ring := reachable.ringInvariant
  have head : s.headBuf? = some buf := by rw [State.headBuf?, taken]; rfl
  obtain ⟨described, -⟩ := reachable.headBuf head
  rw [described.len, ring.carved buf.bid described.bid_lt, ring.registered]

/-- The kernel receives a message on a live receive whenever the connection ring gives out a buffer that
holds it. -/
theorem Reachable.complete?_received_isSome_iff (reachable : Reachable cfg s) {payload : List Char}
    {more : Bool} : (s.complete? index (.received payload more)).isSome ↔
      (∃ sqe fd group, s.app.uring.live[index]? = some sqe ∧
        sqe.request = .recvmsgMultishot fd group) ∧
      s.heldBufs.length < (cfg.bufringParams bufringsConn).entries ∧
      (State.recvmsgOut payload ++ payload).length ≤ (cfg.bufringParams bufringsConn).entrySize := by
  constructor
  · intro completes
    obtain ⟨next, completed⟩ := Option.isSome_iff_exists.mp completes
    obtain ⟨sqe, fd, group, found, request, -⟩ := complete?_received completed
    obtain ⟨-, buf, br, taken, fits, -⟩ := reachable.received completed
    refine ⟨⟨sqe, fd, group, found, request⟩, ?_, reachable.headBuf_len taken ▸ fits⟩
    exact reachable.take?_isSome_iff.mp (Option.isSome_of_mem taken)
  · rintro ⟨⟨sqe, fd, group, found, request⟩, room, fits⟩
    have requested := reachable.requested
    have tagged := requested.tagged sqe (requested.live sqe (List.mem_of_getElem? found))
    have bgid : s.conn.params.bgid = bufringsConn :=
      reachable.ringInvariant.registered ▸ cfg.conn_bgid
    have known : s.ringOfGroup group = some bufringsConn := by
      rw [tagged.group fd group request, ringOfGroup_conn bgid]
    obtain ⟨⟨buf, br⟩, taken⟩ := Option.isSome_iff_exists.mp (reachable.take?_isSome_iff.mpr room)
    rw [← reachable.headBuf_len taken] at fits
    have given : (s.app.bufrings bufringsConn).br.take?
        (ioUringBufRingMask (s.app.bufrings bufringsConn).params.entries) = some (buf, br) := taken
    simp only [State.complete?, found, request, State.receive?, known, given, bind, Option.bind_some,
      if_pos fits, Option.isSome_some]

/-- The kernel executes a live write whenever the line behind it is not longer than its buffer. -/
theorem Reachable.complete?_written_isSome_iff (reachable : Reachable cfg s) :
    (s.complete? index .written).isSome ↔ ∃ sqe bid nbytes,
      s.app.uring.live[index]? = some sqe ∧ sqe.line? = some (bid, nbytes) ∧
      nbytes ≤ loggingBufsize := by
  constructor
  · intro completes
    obtain ⟨next, completed⟩ := Option.isSome_iff_exists.mp completes
    obtain ⟨c, data, live, -, stores, -⟩ := reachable.written completed
    cases request : c.sqe.request with
    | writeFixed fd buf nbytes offset k =>
      simp only [Sqe.writes?, request, Option.ite_none_right_eq_some] at stores
      exact ⟨c.sqe, k, nbytes, live, by rw [Sqe.line?, request], stores.1⟩
    | _ => simp [Sqe.writes?, request] at stores
  · rintro ⟨sqe, bid, nbytes, found, line, fits⟩
    have pool := reachable.poolInvariant
    have armed : sqe ∈ s.app.uring.armed := List.mem_append_right _ (List.mem_of_getElem? found)
    cases request : sqe.request with
    | writeFixed fd buf most offset k =>
      simp only [Sqe.line?, request, Option.some.injEq, Prod.mk.injEq] at line
      obtain ⟨rfl, rfl⟩ := line
      obtain ⟨owned, rfl⟩ := pool.slice (List.mem_append_left _ armed) request
      have carved := pool.carved k (pool.lt_of_outstanding owned)
      have inside : k * loggingBufsize + most ≤ k * loggingBufsize + loggingBufsize :=
        Nat.add_le_add_left fits _
      simp [State.complete?, found, request, State.write?, carved, inside]
    | _ => simp [Sqe.line?, request] at line

end Serves

/-- What decides that the kernel can serve a request. -/
structure ServesExactly (cfg : Config) (s : State) : Prop where
  received : ∀ index payload more, (step? cfg s (.complete index (.received payload more))).isSome ↔
    s.stop = none ∧ (∃ sqe fd group, s.app.uring.live[index]? = some sqe ∧
      sqe.request = .recvmsgMultishot fd group) ∧
    s.heldBufs.length < (cfg.bufringParams bufringsConn).entries ∧
    recvmsgOutSize + payload.length ≤ (cfg.bufringParams bufringsConn).entrySize
  written : ∀ index, (step? cfg s (.complete index .written)).isSome ↔
    s.stop = none ∧ ∃ sqe bid nbytes, s.app.uring.live[index]? = some sqe ∧
      sqe.line? = some (bid, nbytes) ∧ nbytes ≤ loggingBufsize

/-- In every reachable state of a running server a message can be received on a live request exactly
if fewer messages wait to be handled than the ring has entries and header and payload fit in one of
its buffers; and a live log write can be executed exactly if its line is not longer than its buffer. -/
theorem kernel_serves_iff {cfg : Config} {s : State} (reachable : Reachable cfg s) :
    ServesExactly cfg s := by
  refine ⟨fun index payload more => ?_, fun index => ?_⟩
  · have size : (State.recvmsgOut payload ++ payload).length = recvmsgOutSize + payload.length :=
      List.length_append
    rw [step?_complete_isSome_iff, reachable.complete?_received_isSome_iff, size]
  · rw [step?_complete_isSome_iff, reachable.complete?_written_isSome_iff]

/-- Sixteen messages fill the ring, and a seventeenth is not received before the first is handled. -/
theorem kernel_serves_iff_full : ∃ s, Reachable calmConfig s ∧ s.heldBufs.length = 16 ∧
    (step? calmConfig s (.complete 5 (.received ['q'] true))).isNone ∧
    ((step? calmConfig s (.iterate 0 calm)).any fun next =>
      (step? calmConfig next (.complete 5 (.received ['q'] true))).isSome) ∧
    ServesExactly calmConfig s := by
  let events : List Event := calmStart ++ [.complete 0 (.accepted 5 true), .iterate 0 calm, .poll 2] ++
    List.replicate 16 (.complete 5 (.received ['a'] true))
  have passed : (replay? calmConfig events).any (fun s => s.heldBufs.length = 16 ∧
      (step? calmConfig s (.complete 5 (.received ['q'] true))).isNone ∧
      ((step? calmConfig s (.iterate 0 calm)).any fun next =>
        (step? calmConfig next (.complete 5 (.received ['q'] true))).isSome)) = true := by
    decide +kernel
  obtain ⟨first, s, start, run, holds⟩ := exists_of_replay? passed
  obtain ⟨full, refused, served⟩ := of_decide_eq_true holds
  have reachable : Reachable calmConfig s := ⟨first, events, start, run⟩
  exact ⟨s, reachable, full, refused, served, kernel_serves_iff reachable⟩

end UringServer
