import UringServer.Proofs.PoolOwnership

/-! # Log buffers over whole runs

What the partition of the pool means to the functions that use it: which ids are put, which are
popped, where an outstanding write points, and when the pool has nothing left to pop.
-/

namespace UringServer

open Fallible Replay IndexChain

namespace State

/-- Every request made and not finished with: queued, live, or answered in the completion queue. -/
def pending (s : State) : List Sqe := s.app.uring.armed ++ s.app.uring.cq.map (·.sqe)

/-- The ids of the log buffers whose write was queued and whose completion was not handled. -/
def outstanding (s : State) : List ℕ := s.pending.filterMap Sqe.writeId?

end State

/-- A write has one completion only, so its request is unfinished until that one is handled. -/
theorem outstanding_eq {s : State} (requested : Requested s.app.uring s.handled) :
    s.outstanding = s.app.uring.unfinished.filterMap Sqe.writeId? := by
  have posted (c : Completion) (member : c ∈ s.app.uring.cq) : c.Genuine :=
    (requested.posted c (List.mem_append_left _ member)).2
  rw [State.outstanding, State.pending, IoUring.unfinished, List.filterMap_append,
    List.filterMap_append]
  congr 1
  generalize s.app.uring.cq = cq at posted
  induction cq with
  | nil => rfl
  | cons c rest ih =>
    have later := ih fun other member => posted other (List.mem_cons_of_mem _ member)
    rw [List.map_cons, List.filterMap_cons, later, List.filter_cons]
    cases more : c.more with
    | false => simp only [Bool.not_false, if_true, List.map_cons, List.filterMap_cons]
    | true =>
      have other : c.sqe.writeId? = none := by
        by_contra write
        obtain ⟨bid, write⟩ := Option.ne_none_iff_exists'.mp write
        obtain ⟨fd, buf, nbytes, offset, request⟩ := Sqe.writeId?_eq_some_iff.mp write
        have last := (posted c (List.mem_cons_self ..)).single (by rw [request]; rfl)
        exact absurd more (by simp [last])
      simp [other]

theorem PoolInvariant.pop {entries : ℕ} {pool rest : Bufpool} {unfinished : List Sqe}
    {regbuf : BufpoolFreebuf} (invariant : PoolInvariant entries pool unfinished)
    (popped : bufpoolPop pool = some (regbuf, rest)) :
    regbuf.bid < entries ∧ regbuf.bid ∉ unfinished.filterMap Sqe.writeId? := by
  obtain ⟨node, head, rfl, -⟩ := bufpoolPop_eq_some_iff.mp popped
  have free := invariant.head head
  rwa [(invariant.nodes node free.1).1]

/-- The pool is empty when as many writes are outstanding as it has buffers. -/
theorem PoolInvariant.empty_iff {entries : ℕ} {pool : Bufpool} {unfinished : List Sqe}
    (invariant : PoolInvariant entries pool unfinished) :
    (unfinished.filterMap Sqe.writeId?).length ≤ entries ∧
      (pool.freelistHead = none ↔ (unfinished.filterMap Sqe.writeId?).length = entries) := by
  obtain ⟨free, chain, all⟩ := invariant.free
  have count := all.length_eq
  rw [List.length_append, List.length_range] at count
  refine ⟨by omega, ?_⟩
  rw [← chain.eq_nil_iff, ← List.length_eq_zero_iff]
  omega

/-- What `log_event` recorded of its call: the id it popped and a line that is not empty. -/
private theorem logEvent_record {level : LogLevel} {self next : Appctx} {args : LogArgs} {answers : Answers}
    (log : logEvent level self args answers = .ok next) :
    ∃ regbuf pool r, bufpoolPop self.bufpool = some (regbuf, pool) ∧ next.log = self.log ++ [r] ∧
      r.bid = regbuf.bid ∧ r.line ≠ [] := by
  obtain ⟨node, slot, head, -, rfl⟩ := logEvent_ok_iff.mp log
  exact ⟨_, _, _, bufpoolPop_eq_some_iff.mpr ⟨node, head, rfl, rfl⟩, rfl, rfl, logLine_ne_nil _ _ _ _⟩

/-- A step calls `log_event` at most once, and it pops from the pool as the step found it. -/
theorem Step.record {cfg : Config} {s next : State} {event : Event} (step : Step cfg s event next) :
    next.app.log = s.app.log ∨ ∃ regbuf pool r, bufpoolPop s.app.bufpool = some (regbuf, pool) ∧
      next.app.log = s.app.log ++ [r] ∧ r.bid = regbuf.bid ∧ r.line ≠ [] := by
  cases step with
  | stops _ stop => exact .inl rfl
  | mainAccept ring => exact .inl rfl
  | mainLog log => exact .inr (logEvent_record log)
  | mainSubmit => exact .inl rfl
  | poll => exact .inl rfl
  | complete found posted => exact .inl posted.log
  | iterate found handled =>
    cases handled with
    | write request => exact .inl rfl
    | accept request positive ring log =>
      have logged := logEvent_record log
      exact .inr logged
    | recvmsg request filled log ring =>
      have logged := logEvent_record log
      exact .inr logged
    | send request => exact .inl rfl

/-- Who owns the log buffers in a state, and what the next step may do to them. -/
structure LogBuffersOwned (cfg : Config) (s : State) : Prop where
  /-- The free list is finite and without repetition, and with the outstanding ids it is the pool. -/
  free : ∃ free, Chain s.app.bufpool.next s.app.bufpool.freelistHead free ∧ free.Nodup ∧
    free.Disjoint s.outstanding ∧ (free ++ s.outstanding).Perm (List.range cfg.bufpoolSize)
  /-- An id that handling a completion would put is the id of an outstanding write. -/
  put : ∀ c ∈ s.app.uring.cq, (userdataDecode c.cqe.userData).op = Opcode.writeFixed.code →
    ((userdataDecode c.cqe.userData).fd.setWidth 16).toNat ∈ s.outstanding
  /-- What a pop hands out has no outstanding write. -/
  pop : ∀ regbuf pool, bufpoolPop s.app.bufpool = some (regbuf, pool) →
    regbuf.bid < cfg.bufpoolSize ∧ regbuf.bid ∉ s.outstanding
  /-- In particular the buffer of a line logged next. -/
  popped : ∀ event next, step? cfg s event = some next →
    ∀ r ∈ next.app.log.drop s.app.log.length, r.bid ∉ s.outstanding
  /-- An outstanding write names one buffer by address, by index and in its tag. -/
  addressed : ∀ sqe ∈ s.pending, ∀ fd buf nbytes offset k,
    sqe.request = .writeFixed fd buf nbytes offset k → buf = (s.app.bufpool.iovecs k).iovBase ∧
      (userdataDecode sqe.userData).op = Opcode.writeFixed.code ∧
      ((userdataDecode sqe.userData).fd.setWidth 16).toNat = k

theorem Sqe.Tagged.write {sqe : Sqe} (tagged : sqe.Tagged) {fd : ℤ} {buf : Ptr}
    {nbytes offset k : ℕ} (request : sqe.request = .writeFixed fd buf nbytes offset k) :
    (userdataDecode sqe.userData).op = Opcode.writeFixed.code ∧
      ((userdataDecode sqe.userData).fd.setWidth 16).toNat = k % 2 ^ 16 := by
  obtain ⟨pad, tag⟩ := tagged.tag
  rw [tag, request]
  refine ⟨userdataDecode_encode_op .., ?_⟩
  have id := setWidth_ofInt_toNat k
  rw [userdataDecode_encode_fd, BitVec.toNat_setWidth]
  simp only [Request.ident]
  omega

private theorem mem_pending {s : State} (requested : Requested s.app.uring s.handled) {sqe : Sqe}
    (member : sqe ∈ s.pending) : sqe ∈ s.app.uring.sqes := by
  rcases List.mem_append.mp member with armed | posted
  · rcases List.mem_append.mp armed with queued | live
    · exact List.mem_of_mem_drop queued
    · exact requested.live sqe live
  · obtain ⟨c, waiting, rfl⟩ := List.mem_map.mp posted
    exact (requested.posted c (List.mem_append_left _ waiting)).1

/-- The completion of a write is its last, so a pending write is unfinished. -/
private theorem mem_unfinished {s : State} (requested : Requested s.app.uring s.handled) {sqe : Sqe}
    (member : sqe ∈ s.pending) (write : sqe.request.opcode = .writeFixed) :
    sqe ∈ s.app.uring.unfinished := by
  rcases List.mem_append.mp member with armed | posted
  · exact List.mem_append_left _ armed
  · obtain ⟨c, waiting, rfl⟩ := List.mem_map.mp posted
    have last := (requested.posted c (List.mem_append_left _ waiting)).2.single write
    refine List.mem_append_right _ (List.mem_map_of_mem (List.mem_filter.mpr ⟨waiting, ?_⟩))
    rw [last]
    rfl

/-- A pending write owns the buffer whose id it is tagged with. -/
theorem Reachable.pending_write {cfg : Config} {s : State} (reachable : Reachable cfg s) {sqe : Sqe}
    (member : sqe ∈ s.pending) {fd : ℤ} {buf : Ptr} {nbytes offset k : ℕ}
    (request : sqe.request = .writeFixed fd buf nbytes offset k) :
    k ∈ s.outstanding ∧ (userdataDecode sqe.userData).op = Opcode.writeFixed.code ∧
      ((userdataDecode sqe.userData).fd.setWidth 16).toNat = k := by
  have requested := reachable.requested
  have invariant := reachable.poolInvariant
  have owned : k ∈ s.outstanding :=
    List.mem_filterMap.mpr ⟨sqe, member, Sqe.writeId?_eq_some_iff.mpr ⟨_, _, _, _, request⟩⟩
  have bound := invariant.lt_of_outstanding (outstanding_eq requested ▸ owned)
  have small := invariant.small
  obtain ⟨op, id⟩ := (requested.tagged sqe (mem_pending requested member)).write request
  exact ⟨owned, op, by rw [id, Nat.mod_eq_of_lt (by omega)]⟩

/-- In every reachable state the free list and the outstanding writes share out the pool, and puts,
pops and writes respect it. -/
theorem log_buffers_owned {cfg : Config} {s : State} (reachable : Reachable cfg s) :
    LogBuffersOwned cfg s := by
  have requested := reachable.requested
  have invariant := reachable.poolInvariant
  have outstanding := outstanding_eq requested
  obtain ⟨free, chain, all⟩ := invariant.free
  have disjoint := disjoint_of_perm_range all
  refine ⟨⟨free, chain, chain.nodup, outstanding ▸ disjoint, outstanding ▸ all⟩, ?_, ?_, ?_, ?_⟩
  · intro c member op
    obtain ⟨origin, genuine⟩ := requested.posted c (List.mem_append_left _ member)
    rw [decoded_op genuine (requested.tagged _ origin)] at op
    have place : c.sqe ∈ s.pending := List.mem_append_right _ (List.mem_map_of_mem member)
    cases request : c.sqe.request with
    | writeFixed fd buf nbytes offset k =>
      obtain ⟨owned, -, id⟩ := reachable.pending_write place request
      rw [genuine.echo, id]
      exact owned
    | _ =>
      rw [request] at op
      cases op
  · intro regbuf pool popped
    rw [outstanding]
    exact invariant.pop popped
  · intro event next stepped r logged
    rw [outstanding]
    rcases (step_of_step? requested stepped).2.record with same | ⟨regbuf, pool, r', popped, same, id, -⟩
    · simp [same] at logged
    · rw [same, List.drop_left, List.mem_singleton] at logged
      rw [logged, id]
      exact (invariant.pop popped).2
  · intro sqe member fd buf nbytes offset k request
    obtain ⟨owned, op, id⟩ := reachable.pending_write member request
    have place := mem_unfinished requested member (by rw [request]; rfl)
    exact ⟨invariant.addressed sqe place fd buf nbytes offset k request, op, id⟩

/-- Of the four lines of the start-up the first was written and its buffer put back. -/
theorem log_buffers_owned_first_put : ∃ s, Reachable calmConfig s ∧ s.outstanding = [14, 13, 12] ∧
    s.app.bufpool.freelistHead = some 15 ∧ LogBuffersOwned calmConfig s := by
  let events := calmStart ++ [.complete 1 .written, .iterate 0 calm]
  have passed : (replay? calmConfig events).any (fun s => s.outstanding = [14, 13, 12] ∧
      s.app.bufpool.freelistHead = some 15) = true := by decide +kernel
  obtain ⟨first, s, start, run, holds⟩ := exists_of_replay? passed
  obtain ⟨outstanding, head⟩ := of_decide_eq_true holds
  have reachable : Reachable calmConfig s := ⟨first, events, start, run⟩
  exact ⟨s, reachable, outstanding, head, log_buffers_owned reachable⟩

section Exhaustion

variable {c : Completion} {self : Appctx} {answers : Answers}

/-- The event takes the process to the `bufpool_pop` of `log_event`. -/
def State.CallsLog (s : State) : Event → Prop
  | .mainLog _ _ _ => True
  | .iterate index answers => ∃ c, s.app.uring.cq[index]? = some c ∧ 0 ≤ answers.waitCqe ∧
      match c.sqe.request with
      | .multishotAccept _ => 0 ≤ c.cqe.res ∧ s.app.uring.unconsumed.length < sqEntries ∧
          (answers.getpeername c.cqe.res).1 ≤ 0
      | .recvmsgMultishot _ _ => (recvmsgOutSize : ℤ) ≤ c.cqe.res
      | _ => False
  | _ => False

theorem exists_slot_iff {ring : IoUring} :
    (∃ slot : SqeSlot, slot.ring = ring) ↔ ring.unconsumed.length < sqEntries := by
  have most := ring.unconsumed_length_le
  have full := ioUringGetSqe_eq_none_iff ring
  constructor
  · rintro ⟨slot, same⟩
    have found := ioUringGetSqe_eq_some_iff.mpr same
    by_contra none
    rw [full.mpr (by omega)] at found
    cases found
  · intro room
    obtain ⟨slot, found⟩ := Option.ne_none_iff_exists'.mp (fun none => by
      have := full.mp none
      omega)
    exact ⟨slot, ioUringGetSqe_eq_some_iff.mp found⟩

theorem logEvent_regbuf_iff {level : LogLevel} {args : LogArgs} :
    logEvent level self args answers = .error (.assertNotNull .regbuf) ↔
      self.bufpool.freelistHead = none := by
  rw [logEvent_error_iff]
  simp

theorem appctxHandleAccept_regbuf_iff {cqe : Cqe} :
    appctxHandleAccept self cqe answers = .error (.assertNotNull .regbuf) ↔
      (0 ≤ cqe.res ∧ self.uring.unconsumed.length < sqEntries ∧ (answers.getpeername cqe.res).1 ≤ 0) ∧
        self.bufpool.freelistHead = none := by
  rw [appctxHandleAccept_error_iff, ← exists_slot_iff]
  simp only [logEvent_regbuf_iff, reduceCtorEq, and_false, false_or]
  constructor
  · rintro ⟨positive, first, ring, success, empty⟩
    exact ⟨⟨positive, ⟨first, ring⟩, success⟩, empty⟩
  · rintro ⟨⟨positive, ⟨first, ring⟩, success⟩, empty⟩
    exact ⟨positive, first, ring, success, empty⟩

theorem appctxHandleRecvmsg_regbuf_iff {cqe : Cqe} :
    appctxHandleRecvmsg self cqe answers = .error (.assertNotNull .regbuf) ↔
      (recvmsgOutSize : ℤ) ≤ cqe.res ∧ self.bufpool.freelistHead = none := by
  rw [appctxHandleRecvmsg_error_iff]
  simp [logEvent_regbuf_iff]

/-- The guard on the popped buffer fails when the event pops and nothing is free. -/
theorem ends_regbuf_iff {cfg : Config} {s : State} (requested : Requested s.app.uring s.handled)
    {event : Event} : s.Ends cfg (.assertNotNull .regbuf) event ↔
      s.CallsLog event ∧ s.app.bufpool.freelistHead = none := by
  cases event with
  | mainAccept answers => simp [State.Ends, State.CallsLog, mainAccept_error_iff]
  | mainLog level fmt answers => simp [State.Ends, State.CallsLog, logEvent_regbuf_iff]
  | mainSubmit answers => simp [State.Ends, State.CallsLog, mainSubmit_error_iff]
  | poll count => simp [State.Ends, State.CallsLog]
  | complete index outcome => simp [State.Ends, State.CallsLog]
  | iterate index answers =>
    simp only [State.Ends, State.CallsLog, ← exists_and_right]
    refine exists_congr fun c => ?_
    rw [and_assoc]
    refine and_congr_right fun found => ?_
    obtain ⟨origin, genuine⟩ := requested.posted c (mem_posted_of_cq found)
    rw [runEventLoopIteration_error_iff, dispatch_eq genuine (requested.tagged _ origin)]
    cases c.sqe.request with
    | multishotAccept fd => simp [appctxHandleAccept_regbuf_iff, and_assoc]
    | recvmsgMultishot fd group => simp [appctxHandleRecvmsg_regbuf_iff, and_assoc]
    | sendZc fd data => simp
    | writeFixed fd buf nbytes offset bid => simp

end Exhaustion

end UringServer
