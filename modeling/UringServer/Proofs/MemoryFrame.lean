import UringServer.Proofs.LogBuffers
import UringServer.Proofs.Lifecycle
import UringServer.Proofs.RingCirculation

/-! # Who writes which memory

Two things write to the shared memory: `log_event` prints into the buffer it popped, and the kernel
stores a message in the provided buffer it took. So a step changes no byte outside of the buffer at the
head of the free list or the one at the head of the ring, and none that belongs to somebody else as
long as ids circulate exactly once.
-/

namespace UringServer

open Fallible Replay

/-- The bytes of the buffer that a descriptor names. -/
def IoUringBuf.range (buf : IoUringBuf) : Set Ptr := Iovec.range ⟨buf.addr, buf.len⟩

/-- What does not stick out of a buffer changes nothing outside of it. -/
private theorem Memory.write_outside (memory : Memory) {iov : Iovec} {data : List Char} {ptr : Ptr}
    (fits : data.length ≤ iov.iovLen) (outside : ptr ∉ iov.range) :
    memory.write iov.iovBase data ptr = memory ptr := by
  unfold write
  split
  · next covered =>
    have past : iov.iovBase.offset + iov.iovLen ≤ ptr.offset := by
      by_contra inside
      exact outside ⟨covered.1, covered.2, not_le.mp inside⟩
    rw [List.getD_eq_getElem?_getD, List.getElem?_eq_none (by omega), Option.getD_none]
  · rfl

/-- Bytes that agree read alike. -/
theorem Memory.read_congr {memory other : Memory} {ptr : Ptr} {length : ℕ}
    (same : ∀ i < length, memory (ptr.add i) = other (ptr.add i)) :
    memory.read ptr length = other.read ptr length :=
  List.map_congr_left fun i member => same i (List.mem_range.mp member)

namespace State

/-- The provided buffer that the next message is received into. -/
def headBuf? (s : State) : Option IoUringBuf :=
  (s.conn.br.take? (ioUringBufRingMask s.conn.params.entries)).map (·.1)

/-- The provided buffer that an event takes from the ring. -/
def taken? (s : State) : Event → Option IoUringBuf
  | .complete _ (.received _ _) => s.headBuf?
  | _ => none

/-- The log buffer that an event may pop. -/
def popped? (s : State) : Event → Option ℕ
  | .mainLog _ _ _ => s.app.bufpool.freelistHead
  | .iterate index _ => s.app.uring.cq[index]?.bind fun c =>
      if c.sqe.request.isMultishot then s.app.bufpool.freelistHead else none
  | _ => none

/-- The bytes that an event may change. -/
def writable (s : State) (event : Event) : Set Ptr :=
  {ptr | (∃ k, s.popped? event = some k ∧ ptr ∈ (Block.bufpool.carve loggingBufsize k).range) ∨
    ∃ buf, s.taken? event = some buf ∧ ptr ∈ buf.range}

end State

section Writers

variable {entries : ℕ}

/-- `log_event` prints into the buffer at the head of the free list. -/
theorem logEvent_memory {level : LogLevel} {self next : Appctx} {args : LogArgs} {answers : Answers}
    {unfinished : List Sqe} (pool : PoolInvariant entries self.bufpool unfinished)
    (log : logEvent level self args answers = .ok next) : ∃ node,
      self.bufpool.freelistHead = some node ∧
      ∀ ptr ∉ (Block.bufpool.carve loggingBufsize node).range, next.memory ptr = self.memory ptr := by
  obtain ⟨node, slot, head, -, rfl⟩ := logEvent_ok_iff.mp log
  refine ⟨node, head, fun ptr outside => ?_⟩
  have bound := (pool.head head).1
  have place : self.logBuf node = (Block.bufpool.carve loggingBufsize node).iovBase := by
    rw [Appctx.logBuf, (pool.nodes node bound).2, pool.carved node bound]
    rfl
  have fits : ((self.lineText level args answers node).take (loggingBufsize - 1) ++ [nul]).length ≤
      loggingBufsize := by
    simp only [List.length_append, List.length_take, List.length_singleton, loggingBufsize]
    omega
  change self.memory.write (self.logBuf node) _ ptr = _
  rw [place]
  exact self.memory.write_outside fits outside

/-- A handler writes to memory through `log_event` only. -/
theorem Handled.memory {self branch : Appctx} {c : Completion} {answers : Answers}
    {unfinished : List Sqe} (step : Handled self c answers branch)
    (pool : PoolInvariant entries self.bufpool unfinished) :
    (c.sqe.request.isMultishot = false → branch.memory = self.memory) ∧
    (c.sqe.request.isMultishot = true → ∃ node, self.bufpool.freelistHead = some node ∧
      ∀ ptr ∉ (Block.bufpool.carve loggingBufsize node).range, branch.memory ptr = self.memory ptr) := by
  cases step with
  | write request => simp [request, Request.isMultishot]
  | @accept listenfd first next request positive ring log =>
    refine ⟨by simp [request, Request.isMultishot], fun _ => ?_⟩
    exact @logEvent_memory entries _ (self.armed c.cqe.res answers first) _ _ _ unfinished pool log
  | recvmsg request filled log ring =>
    refine ⟨by simp [request, Request.isMultishot], fun _ => ?_⟩
    have printed := logEvent_memory pool log
    exact printed
  | send request => simp [request, Request.isMultishot]

end Writers

section Kernel

variable {s next : State} {index : ℕ}

/-- Completing a request in any other way stores nothing and takes nothing. -/
private theorem complete?_unfilled {outcome : Outcome} (completed : s.complete? index outcome = some next)
    (other : ∀ payload more, outcome ≠ .received payload more) :
    next.app.memory = s.app.memory ∧ next.app.bufrings = s.app.bufrings := by
  simp only [State.complete?, bind, Option.bind_eq_some_iff] at completed
  obtain ⟨sqe, -, completed⟩ := completed
  split at completed
  · simp only [State.accept?] at completed
    split_ifs at completed
    cases completed
    exact ⟨rfl, rfl⟩
  · exact absurd rfl (other _ _)
  · simp only [State.write?] at completed
    split_ifs at completed
    cases completed
    exact ⟨rfl, rfl⟩
  · split_ifs at completed
    cases completed
    exact ⟨rfl, rfl⟩
  · cases completed

/-- A message answers a receive. -/
theorem complete?_received {payload : List Char} {more : Bool}
    (completed : s.complete? index (.received payload more) = some next) :
    ∃ sqe fd group, s.app.uring.live[index]? = some sqe ∧
      sqe.request = .recvmsgMultishot fd group ∧ s.receive? index sqe group payload more = some next := by
  simp only [State.complete?, bind, Option.bind_eq_some_iff] at completed
  obtain ⟨sqe, found, completed⟩ := completed
  refine ⟨sqe, ?_⟩
  cases request : sqe.request with
  | recvmsgMultishot fd group =>
    rw [request] at completed
    exact ⟨fd, group, found, rfl, completed⟩
  | _ => simp [request] at completed

/-- A message takes the buffer at the head of the connection ring and is stored there, header
first. -/
theorem Reachable.received {cfg : Config} (reachable : Reachable cfg s) {payload : List Char}
    {more : Bool} (completed : s.complete? index (.received payload more) = some next) :
    ∃ sqe buf br, s.conn.br.take? (ioUringBufRingMask s.conn.params.entries) = some (buf, br) ∧
      (State.recvmsgOut payload ++ payload).length ≤ buf.len ∧
      next.app.memory = s.app.memory.write buf.addr (State.recvmsgOut payload ++ payload) ∧
      next.app.bufrings = Function.update s.app.bufrings bufringsConn { s.conn with br := br } ∧
      next.app.uring.cq = s.app.uring.cq ++ [⟨⟨sqe.userData,
        (State.recvmsgOut payload ++ payload).length, cqeFlags (some buf.bid) more⟩, sqe, some buf,
        more⟩] := by
  obtain ⟨sqe, fd, group, found, request, stored⟩ := complete?_received completed
  have requested := reachable.requested
  have bgid : s.conn.params.bgid = bufringsConn :=
    reachable.ringInvariant.registered ▸ cfg.conn_bgid
  have tagged := requested.tagged sqe (requested.live sqe (List.mem_of_getElem? found))
  simp only [State.receive?, bind, Option.bind_eq_some_iff, Prod.exists] at stored
  obtain ⟨ringIndex, known, buf, br, taken, stored⟩ := stored
  rw [tagged.group fd group request, ringOfGroup_conn bgid] at known
  cases known
  split_ifs at stored with fits
  cases stored
  exact ⟨sqe, buf, br, taken, fits, rfl, rfl, rfl⟩

end Kernel

/-- A step changes only what its event may change. -/
theorem Reachable.frame {cfg : Config} {s next : State} {event : Event} (reachable : Reachable cfg s)
    (stepped : step? cfg s event = some next) {ptr : Ptr} (outside : ptr ∉ s.writable event) :
    next.app.memory ptr = s.app.memory ptr := by
  have pool := reachable.poolInvariant
  have away (k : ℕ) (popped : s.popped? event = some k) :
      ptr ∉ (Block.bufpool.carve loggingBufsize k).range :=
    fun inside => outside (.inl ⟨k, popped, inside⟩)
  obtain ⟨running, step⟩ := step_of_step? reachable.requested stepped
  cases step with
  | stops _ stop => rfl
  | mainAccept ring => rfl
  | mainLog log =>
    obtain ⟨node, head, same⟩ := logEvent_memory pool log
    exact same ptr (away node head)
  | mainSubmit => rfl
  | poll => rfl
  | @complete index outcome sqe next found posted =>
    have completed : s.complete? index outcome = some next := by
      simpa [step?, running] using stepped
    by_cases filled : ∃ payload more, outcome = .received payload more
    · obtain ⟨payload, more, rfl⟩ := filled
      obtain ⟨sqe, buf, br, taken, fits, memory, -, -⟩ := reachable.received completed
      rw [memory]
      refine @Memory.write_outside s.app.memory ⟨buf.addr, buf.len⟩ _ ptr fits fun inside => ?_
      exact outside (.inr ⟨buf, by simp [State.taken?, State.headBuf?, taken], inside⟩)
    · rw [(complete?_unfilled completed fun payload more same => filled ⟨payload, more, same⟩).1]
  | @iterate index answers c branch found handled =>
    obtain ⟨plain, logged⟩ := handled.memory pool
    change branch.memory ptr = s.app.memory ptr
    cases multishot : c.sqe.request.isMultishot with
    | false => rw [plain multishot]
    | true =>
      obtain ⟨node, head, same⟩ := logged multishot
      exact same ptr (away node (by simp [State.popped?, found, multishot, head]))

/-- Buffer `k` of a block that is cut into `count` buffers lies in the block. -/
theorem Block.carve_subset (block : Block) {size count k : ℕ} (bound : k < count) :
    (block.carve size k).range ⊆ block.range (count * size) := by
  rw [← Block.biUnion_carve]
  exact fun ptr inside => Set.mem_biUnion bound inside

section Rings

variable {cfg : Config} {s next : State} {event : Event}

/-- A descriptor of the ring names the slice that its id counts. -/
theorem Reachable.described_range (reachable : Reachable cfg s) {buf : IoUringBuf}
    (described : s.conn.Describes buf) : buf.range =
      ((Block.bufring bufringsConn).carve (cfg.bufringParams bufringsConn).entrySize buf.bid).range := by
  have invariant := reachable.ringInvariant
  have carved := invariant.carved buf.bid described.bid_lt
  rw [IoUringBuf.range, described.addr, described.len, carved, invariant.registered]
  rfl

/-- The buffer at the head is one of the ring, and a published one. -/
theorem Reachable.headBuf (reachable : Reachable cfg s) {buf : IoUringBuf}
    (head : s.headBuf? = some buf) : s.conn.Describes buf ∧ buf.bid ∈ s.conn.published := by
  obtain ⟨⟨_, br⟩, taken, rfl⟩ := Option.map_eq_some_iff.mp head
  obtain ⟨k, -, power⟩ := reachable.power
  have after := (RingMove.receive taken).keeps power reachable.ringInvariant
  refine ⟨(Bufring.describes_with_br ..).mp (after.described _ (by simp)), ?_⟩
  obtain ⟨filled, slot, rfl⟩ := IoUringBufRing.take?_eq_some_iff.mp taken
  have count := IoUringBufRing.available_take filled
  refine List.mem_map.mpr ⟨0, List.mem_range.mpr (by omega), ?_⟩
  rw [Nat.add_zero]
  exact (congrArg IoUringBuf.bid slot).symm

/-- Handlers give buffers back to the connection ring only. -/
theorem Handled.spare {self branch : Appctx} {c : Completion} {answers : Answers}
    (step : Handled self c answers branch) {index : Fin bufringCount} (spare : index ≠ bufringsConn) :
    branch.bufrings index = self.bufrings index := by
  cases step with
  | write request => rfl
  | accept request positive ring log =>
    have same := congrFun (logEvent_bufrings log) index
    exact same
  | recvmsg request filled log ring =>
    have same := congrFun (logEvent_bufrings log) index
    exact (Function.update_of_ne spare _ _).trans same
  | send request => rfl

/-- No step touches the second ring. -/
theorem Reachable.spare (reachable : Reachable cfg s) (stepped : step? cfg s event = some next)
    {index : Fin bufringCount} (spare : index ≠ bufringsConn) :
    next.app.bufrings index = s.app.bufrings index := by
  obtain ⟨running, step⟩ := step_of_step? reachable.requested stepped
  cases step with
  | stops _ stop => rfl
  | mainAccept ring => rfl
  | mainLog log => exact congrFun (logEvent_bufrings log) index
  | mainSubmit => rfl
  | poll => rfl
  | @complete place outcome sqe next found posted =>
    have completed : s.complete? place outcome = some next := by
      simpa [step?, running] using stepped
    by_cases filled : ∃ payload more, outcome = .received payload more
    · obtain ⟨payload, more, rfl⟩ := filled
      obtain ⟨sqe, buf, br, -, -, -, rings, -⟩ := reachable.received completed
      rw [rings]
      exact Function.update_of_ne spare _ _
    · rw [(complete?_unfilled completed fun payload more same => filled ⟨payload, more, same⟩).2]
  | iterate found handled => exact handled.spare spare

end Rings

/-- What a step may do to the shared memory. -/
structure MemoryFrame (cfg : Config) (s next : State) (event : Event) : Prop where
  changed : ∀ ptr ∉ s.writable event, next.app.memory ptr = s.app.memory ptr
  /-- Nothing is written outside of the two allocations in use. -/
  bounded : s.writable event ⊆ Block.bufpool.range (cfg.bufpoolSize * loggingBufsize) ∪
    (Block.bufring bufringsConn).range
      ((cfg.bufringParams bufringsConn).entries * (cfg.bufringParams bufringsConn).entrySize)
  /-- A log buffer is left alone until its write is handled. -/
  logBuffers : ∀ k ∈ s.outstanding,
    Disjoint (Block.bufpool.carve loggingBufsize k).range (s.writable event)
  /-- While ids circulate exactly once, a message is left alone until it is handled. -/
  messages : s.RingExact → ∀ buf ∈ s.heldBufs, Disjoint buf.range (s.writable event)
  spare : ∀ index ≠ bufringsConn, next.app.bufrings index = s.app.bufrings index

private theorem State.popped?_head {s : State} {event : Event} {k : ℕ} (popped : s.popped? event = some k) :
    s.app.bufpool.freelistHead = some k := by
  unfold popped? at popped
  split at popped
  · exact popped
  · obtain ⟨c, -, popped⟩ := Option.bind_eq_some_iff.mp popped
    split_ifs at popped
    exact popped
  · cases popped

private theorem State.taken?_head {s : State} {event : Event} {buf : IoUringBuf}
    (taken : s.taken? event = some buf) : s.headBuf? = some buf := by
  unfold taken? at taken
  split at taken
  · exact taken
  · cases taken

/-- Buffers of different allocations share no byte. -/
private theorem Block.disjoint_blocks {first second : Block} (apart : first ≠ second) {a b k l : ℕ} :
    Disjoint (first.carve a k).range (second.carve b l).range :=
  Set.disjoint_left.mpr fun _ here there => apart (here.1.symm.trans there.1)

/-- An event that takes no buffer with the id of a descriptor writes nothing there. -/
theorem Reachable.spared {cfg : Config} {s : State} {event : Event} (reachable : Reachable cfg s)
    {buf : IoUringBuf} (described : s.conn.Describes buf)
    (other : ∀ taken, s.taken? event = some taken → taken.bid ≠ buf.bid) :
    Disjoint buf.range (s.writable event) := by
  rw [reachable.described_range described]
  refine Set.disjoint_left.mpr ?_
  rintro ptr here (⟨k, popped, there⟩ | ⟨taken, takes, there⟩)
  · exact Set.disjoint_left.mp (Block.disjoint_blocks (by simp)) here there
  · rw [reachable.described_range (reachable.headBuf (State.taken?_head takes)).1] at there
    exact Set.disjoint_left.mp (Block.disjoint_carve (other taken takes).symm) here there

/-- While ids circulate exactly once, the buffer that an event takes is no held one. -/
theorem Reachable.taken_fresh {cfg : Config} {s : State} {event : Event} (reachable : Reachable cfg s)
    (exactly : s.RingExact) {buf taken : IoUringBuf} (held : buf ∈ s.heldBufs)
    (takes : s.taken? event = some taken) : taken.bid ≠ buf.bid := by
  intro same
  have published := (reachable.headBuf (State.taken?_head takes)).2
  have once := List.disjoint_of_nodup_append (exactly.nodup_iff.mpr List.nodup_range)
  exact once published (same ▸ List.mem_map_of_mem held)

/-- Nothing is written to a log buffer as long as its write is outstanding. -/
theorem Reachable.outstanding_disjoint {cfg : Config} {s : State} {event : Event}
    (reachable : Reachable cfg s) {k : ℕ} (owned : k ∈ s.outstanding) :
    Disjoint (Block.bufpool.carve loggingBufsize k).range (s.writable event) := by
  refine Set.disjoint_left.mpr ?_
  rintro ptr here (⟨l, popped, there⟩ | ⟨buf, taken, there⟩)
  · have fresh := (reachable.poolInvariant.head (State.popped?_head popped)).2
    rw [← outstanding_eq reachable.requested] at fresh
    have apart : k ≠ l := fun same => fresh (same ▸ owned)
    exact Set.disjoint_left.mp (Block.disjoint_carve apart) here there
  · rw [reachable.described_range (reachable.headBuf (State.taken?_head taken)).1] at there
    exact Set.disjoint_left.mp (Block.disjoint_blocks (by simp)) here there

/-- Every step from a reachable state writes inside the buffer it popped or took, and these belong to
nobody else. -/
theorem memory_frame {cfg : Config} {s next : State} {event : Event} (reachable : Reachable cfg s)
    (stepped : step? cfg s event = some next) : MemoryFrame cfg s next event := by
  have pool := reachable.poolInvariant
  refine ⟨fun ptr => reachable.frame stepped, ?_, ?_, ?_, fun index => reachable.spare stepped⟩
  · rintro ptr (⟨k, popped, inside⟩ | ⟨buf, taken, inside⟩)
    · exact .inl (Block.carve_subset _ (pool.head (State.popped?_head popped)).1 inside)
    · obtain ⟨described, -⟩ := reachable.headBuf (State.taken?_head taken)
      rw [reachable.described_range described] at inside
      exact .inr (Block.carve_subset _ (reachable.ringInvariant.registered ▸ described.bid_lt) inside)
  · exact fun k owned => reachable.outstanding_disjoint owned
  · intro exactly buf held
    exact reachable.spared (reachable.ringInvariant.described buf held)
      fun taken => reachable.taken_fresh exactly held

/-- A connection is accepted and its receive is live at index 5. -/
def listening : List Event :=
  calmStart ++ [.complete 0 (.accepted 5 true), .iterate 0 calm, .poll 2]

/-- A message of one byte is stored behind its header. -/
theorem memory_frame_message : ∃ s next, Reachable calmConfig s ∧
    step? calmConfig s (.complete 5 (.received ['x'] true)) = some next ∧
    s.app.memory ⟨.bufring 0, 16⟩ = nul ∧ next.app.memory ⟨.bufring 0, 16⟩ = 'x' ∧
    MemoryFrame calmConfig s next (.complete 5 (.received ['x'] true)) := by
  have passed : (replay? calmConfig listening).any (fun s =>
      (step? calmConfig s (.complete 5 (.received ['x'] true))).any fun next =>
        s.app.memory ⟨.bufring 0, 16⟩ = nul ∧ next.app.memory ⟨.bufring 0, 16⟩ = 'x') = true := by
    decide +kernel
  obtain ⟨first, s, start, run, holds⟩ := exists_of_replay? passed
  obtain ⟨next, stepped, holds⟩ := (Option.any_eq_true ..).mp holds
  obtain ⟨before, after⟩ := of_decide_eq_true holds
  have reachable : Reachable calmConfig s := ⟨first, _, start, run⟩
  exact ⟨s, next, reachable, stepped, before, after, memory_frame reachable stepped⟩

/-- In every run the second ring stays as `bufring_init` left it, and so does the memory behind it. -/
theorem spare_ring_untouched {cfg : Config} {first s : State} {events : List Event}
    (start : State.initial cfg = .ok first) (run : run? (step? cfg) first events = some s)
    {index : Fin bufringCount} (spare : index ≠ bufringsConn) :
    s.app.bufrings index = first.app.bufrings index ∧
      ∀ ptr, ptr.block = .bufring index → s.app.memory ptr = first.app.memory ptr := by
  let Untouched (t : State) : Prop := Reachable cfg t ∧
    t.app.bufrings index = first.app.bufrings index ∧
      ∀ ptr, ptr.block = .bufring index → t.app.memory ptr = first.app.memory ptr
  have step (t : State) (event : Event) (next : State) (untouched : Untouched t)
      (stepped : step? cfg t event = some next) : Untouched next := by
    obtain ⟨reachable, ring, memory⟩ := untouched
    refine ⟨reachable.step stepped, (reachable.spare stepped spare).trans ring, ?_⟩
    intro ptr place
    rw [reachable.frame stepped, memory ptr place]
    rintro (⟨k, -, inside⟩ | ⟨buf, taken, inside⟩)
    · rw [inside.1] at place
      cases place
    · rw [reachable.described_range (reachable.headBuf (State.taken?_head taken)).1] at inside
      rw [inside.1] at place
      exact spare (Block.bufring.inj place).symm
  exact (run?_preserves step ⟨.initial start, rfl, fun _ _ => rfl⟩ run).2

/-- After a message the first ring has an entry less and the second one has all. -/
theorem spare_ring_untouched_message : ∃ first s, State.initial calmConfig = .ok first ∧
    run? (step? calmConfig) first (listening ++ [.complete 5 (.received ['x'] true)]) = some s ∧
    s.conn.br.available = 15 ∧ (s.app.bufrings (Fin.last 1)).br.available = 16 ∧
    s.app.bufrings (Fin.last 1) = first.app.bufrings (Fin.last 1) := by
  have passed : (replay? calmConfig (listening ++ [.complete 5 (.received ['x'] true)])).any (fun s =>
      s.conn.br.available = 15 ∧ (s.app.bufrings (Fin.last 1)).br.available = 16) = true := by
    decide +kernel
  obtain ⟨first, s, start, run, holds⟩ := exists_of_replay? passed
  obtain ⟨taken, full⟩ := of_decide_eq_true holds
  have spare : Fin.last 1 ≠ bufringsConn := by decide
  exact ⟨first, s, start, run, taken, full, (spare_ring_untouched start run spare).1⟩

end UringServer
