import UringServer.Proofs.LogLength
import UringServer.Proofs.MemoryFrame
import Mathlib.Data.List.Perm.Subperm

/-! # The lines that writes store

A write asks for as many bytes as its whole line has, and the kernel refuses a range that sticks out of
the registered buffer. As long as a write owns its buffer nobody else writes there, so what the kernel
stores is the line as it was printed, and each line is stored at most once.
-/

namespace UringServer

open Fallible Replay

/-- The bytes that the write of a record asks for, as far as its buffer has them. -/
def LogRecord.stored (r : LogRecord) : List Char :=
  (r.line.take (loggingBufsize - 1) ++ [nul]).take r.line.length

/-- The range of the write of a record lies in its buffer. -/
def LogRecord.InBuffer (r : LogRecord) : Prop := r.line.length ≤ loggingBufsize

instance (r : LogRecord) : Decidable r.InBuffer := inferInstanceAs (Decidable (_ ≤ _))

/-- What a write stores if it is executed now; nothing if its range sticks out of its buffer. -/
def Sqe.writes? (memory : Memory) (sqe : Sqe) : Option (List Char) :=
  match sqe.request with
  | .writeFixed _ buf nbytes _ _ => if nbytes ≤ loggingBufsize then some (memory.read buf nbytes) else none
  | _ => none

private theorem Sqe.writes?_of_other {sqe : Sqe} (other : sqe.writeId? = none) (memory : Memory) :
    sqe.writes? memory = none := by
  unfold writes? writeId? at *
  cases request : sqe.request with
  | writeFixed fd buf nbytes offset k => rw [request] at other; cases other
  | _ => rfl

private theorem Memory.read_take (memory : Memory) (ptr : Ptr) {short long : ℕ} (shorter : short ≤ long) :
    memory.read ptr short = (memory.read ptr long).take short := by
  rw [read, read, ← List.map_take, List.take_range, min_eq_left shorter]

/-- A write whose buffer holds what was stored of a line. -/
private theorem Sqe.writes?_line {r : LogRecord} {memory : Memory} {fd : ℤ} {buf : Ptr} {offset bid : ℕ}
    (userData : BitVec 64)
    (printed : memory.read buf (r.line.take (loggingBufsize - 1) ++ [nul]).length =
      r.line.take (loggingBufsize - 1) ++ [nul]) :
    (⟨.writeFixed fd buf r.line.length offset bid, userData⟩ : Sqe).writes? memory =
      if r.InBuffer then some r.stored else none := by
  by_cases inside : r.InBuffer
  · have shorter : r.line.length ≤ (r.line.take (loggingBufsize - 1) ++ [nul]).length := by
      have most : r.line.length ≤ 256 := inside
      simp only [List.length_append, List.length_take, List.length_singleton, loggingBufsize]
      omega
    simp only [writes?, if_pos inside, if_pos (show r.line.length ≤ loggingBufsize from inside)]
    rw [Memory.read_take memory buf shorter, printed, LogRecord.stored]
  · simp only [writes?, if_neg inside, if_neg (show ¬ r.line.length ≤ loggingBufsize from inside)]

/-- What a step of the program queues: requests that are no writes, and at most one line with its
write. -/
inductive Queues (self next : Appctx) : Prop
  | silent (added : List Sqe) (others : ∀ sqe ∈ added, sqe.writeId? = none)
      (armed : next.uring.armed.Perm (added ++ self.uring.armed)) (log : next.log = self.log)
  | line (r : LogRecord) (write : Sqe) (added : List Sqe) (others : ∀ sqe ∈ added, sqe.writeId? = none)
      (armed : next.uring.armed.Perm (write :: (added ++ self.uring.armed)))
      (log : next.log = self.log ++ [r])
      (stores : write.writes? next.memory = if r.InBuffer then some r.stored else none)

namespace Queues

variable {self next later : Appctx}

/-- A request that is no write may be queued after it. -/
theorem store (queues : Queues self next) {slot : SqeSlot} {sqe : Sqe}
    (ring : slot.ring = next.uring) (other : sqe.writeId? = none) (uring : later.uring = slot.store sqe)
    (memory : later.memory = next.memory) (log : later.log = next.log) : Queues self later := by
  have queued : later.uring.armed.Perm (sqe :: next.uring.armed) := by
    rw [uring, ← ring]
    exact IoUring.store_armed slot sqe
  cases queues with
  | silent added others armed same =>
    refine .silent (sqe :: added) ?_ (queued.trans (armed.cons sqe)) (log.trans same)
    exact List.forall_mem_cons.mpr ⟨other, others⟩
  | line r write added others armed same stores =>
    refine .line r write (sqe :: added) ?_ ?_ (log.trans same) (memory ▸ stores)
    · exact List.forall_mem_cons.mpr ⟨other, others⟩
    · exact queued.trans ((armed.cons sqe).trans (.swap ..))

/-- The polling thread may move on, and whatever else is no request, line or byte may change. -/
theorem same (queues : Queues self next) (armed : later.uring.armed.Perm next.uring.armed)
    (memory : later.memory = next.memory) (log : later.log = next.log) : Queues self later := by
  cases queues with
  | silent added others queued same =>
    exact .silent added others (armed.trans queued) (log.trans same)
  | line r write added others queued same stores =>
    exact .line r write added others (armed.trans queued) (log.trans same) (memory ▸ stores)

theorem none (self : Appctx) : Queues self self := .silent [] (by simp) (.refl _) rfl

end Queues

/-- A call of `log_event` after requests that are no writes. -/
theorem Queues.logEvent {start self next : Appctx} {level : LogLevel} {args : LogArgs}
    {answers : Answers} {added : List Sqe} (others : ∀ sqe ∈ added, sqe.writeId? = Option.none)
    (armed : self.uring.armed.Perm (added ++ start.uring.armed)) (same : self.log = start.log)
    (log : logEvent level self args answers = .ok next) : Queues start next := by
  obtain ⟨node, slot, -, ring, rfl⟩ := logEvent_ok_iff.mp log
  refine .line ⟨level, args, (self.bufpool.freelistMem node).bid, self.lineText level args answers node⟩
    (self.writeSqe level args answers node) added others ?_ ?_ ?_
  · refine (IoUring.store_armed slot _).trans ?_
    rw [ring]
    exact armed.cons _
  · rw [← same]
    rfl
  · have printed := Memory.read_write_self self.memory (self.logBuf node)
      ((self.lineText level args answers node).take (loggingBufsize - 1) ++ [nul]) []
    rw [List.append_nil] at printed
    unfold Appctx.logged Appctx.writeSqe
    generalize self.lineText level args answers node = line at printed ⊢
    exact @Sqe.writes?_line ⟨level, args, _, line⟩ _ _ _ _ _ _ printed

/-- A handler queues at most one line. -/
private theorem Handled.queues {self branch : Appctx} {c : Completion} {answers : Answers}
    (step : Handled self c answers branch) : Queues self branch := by
  cases step with
  | write request => exact (Queues.none self).same (.refl _) rfl rfl
  | @accept listenfd first next request positive ring log =>
    have queued := IoUring.store_armed first (recvmsgSqe c.cqe.res answers)
    rw [ring] at queued
    have armed : (self.armed c.cqe.res answers first).uring.armed.Perm
        ([recvmsgSqe c.cqe.res answers] ++ self.uring.armed) := (IoUring.poll_armed ..).trans queued
    exact Queues.logEvent (by simp [recvmsgSqe, Sqe.writeId?]) armed rfl log
  | @recvmsg fd group buf logged second request filled log ring =>
    have line : Queues self logged := @Queues.logEvent self self _ _ _ _ [] (by simp) (.refl _) rfl log
    have recycled : Queues self (logged.recycled buf.bid answers) :=
      line.same (IoUring.poll_armed ..) rfl rfl
    exact recycled.store ring rfl rfl rfl rfl
  | send request => exact Queues.none self

/-- An owned buffer is a slice of the pool's memory. -/
theorem PoolInvariant.slice {entries : ℕ} {pool : Bufpool} {unfinished : List Sqe}
    (invariant : PoolInvariant entries pool unfinished) {sqe : Sqe} (member : sqe ∈ unfinished)
    {fd : ℤ} {buf : Ptr} {nbytes offset k : ℕ} (request : sqe.request = .writeFixed fd buf nbytes offset k) :
    k ∈ unfinished.filterMap Sqe.writeId? ∧ buf = ⟨.bufpool, k * loggingBufsize⟩ := by
  have owned : k ∈ unfinished.filterMap Sqe.writeId? :=
    List.mem_filterMap.mpr ⟨sqe, member, Sqe.writeId?_eq_some_iff.mpr ⟨_, _, _, _, request⟩⟩
  refine ⟨owned, ?_⟩
  rw [invariant.addressed sqe member fd buf nbytes offset k request,
    invariant.carved k (invariant.lt_of_outstanding owned)]

/-- The bytes that a range in an owned buffer stores are the same after the next step. -/
theorem Reachable.writes?_kept {cfg : Config} {s next : State} {event : Event}
    (reachable : Reachable cfg s) (stepped : step? cfg s event = some next) {sqe : Sqe}
    (armed : sqe ∈ s.app.uring.armed) : sqe.writes? next.app.memory = sqe.writes? s.app.memory := by
  unfold Sqe.writes?
  cases request : sqe.request with
  | writeFixed fd buf nbytes offset k =>
    have pool := reachable.poolInvariant
    obtain ⟨owned, rfl⟩ := pool.slice (List.mem_append_left _ armed) request
    rw [← outstanding_eq reachable.requested] at owned
    refine if_ctx_congr .rfl (fun inside => congrArg some (Memory.read_congr ?_)) fun _ => rfl
    intro i bound
    refine reachable.frame stepped fun written => ?_
    refine Set.disjoint_left.mp (reachable.outstanding_disjoint owned) ?_ written
    exact ⟨rfl, Nat.le_add_right .., Nat.add_lt_add_left (bound.trans_le inside) _⟩
  | _ => rfl

/-- What was written and what the armed writes will write are distinct lines of the log, as stored. -/
def StoredKept (s : State) : Prop :=
  (s.written ++ s.app.uring.armed.filterMap (Sqe.writes? s.app.memory)).Subperm
    ((s.app.log.filter (·.InBuffer)).map LogRecord.stored)

/-- Queueing a line adds what it stores, on both sides. -/
private theorem Queues.storedKept {s next : State} (queues : Queues s.app next.app) (kept : StoredKept s)
    (contents : ∀ sqe ∈ s.app.uring.armed, sqe.writes? next.app.memory = sqe.writes? s.app.memory)
    (written : next.written = s.written) : StoredKept next := by
  have silent (added : List Sqe) (others : ∀ sqe ∈ added, sqe.writeId? = Option.none) :
      (added ++ s.app.uring.armed).filterMap (Sqe.writes? next.app.memory) =
        s.app.uring.armed.filterMap (Sqe.writes? s.app.memory) := by
    rw [List.filterMap_append, List.filterMap_congr contents]
    refine List.append_left_eq_self.mpr (List.filterMap_eq_nil_iff.mpr ?_)
    exact fun sqe member => Sqe.writes?_of_other (others sqe member) _
  unfold StoredKept at *
  rw [written]
  cases queues with
  | silent added others armed log =>
    have data := armed.filterMap (Sqe.writes? next.app.memory)
    rw [silent added others] at data
    rw [log]
    exact (data.append_left _).subperm.trans kept
  | line r write added others armed log stores =>
    have data := armed.filterMap (Sqe.writes? next.app.memory)
    rw [List.filterMap_cons, stores, silent added others] at data
    rw [log, List.filter_append, List.map_append]
    by_cases inside : r.InBuffer
    · simp only [if_pos inside] at data
      have last : ([r].filter (·.InBuffer)).map LogRecord.stored = [r.stored] := by simp [inside]
      rw [last]
      refine ((data.append_left _).trans List.perm_middle).subperm.trans ?_
      exact ((List.subperm_cons _).mpr kept).trans (List.perm_append_singleton ..).symm.subperm
    · simp only [if_neg inside] at data
      have last : ([r].filter (·.InBuffer)).map LogRecord.stored = [] := by simp [inside]
      rw [last, List.append_nil]
      exact (data.append_left _).subperm.trans kept

section Kernel

variable {s next : State} {index : ℕ}

/-- Only an executed write is recorded as one. -/
private theorem complete?_unwritten {outcome : Outcome} (completed : s.complete? index outcome = some next)
    (other : outcome ≠ .written) : next.written = s.written := by
  simp only [State.complete?, bind, Option.bind_eq_some_iff] at completed
  obtain ⟨sqe, -, completed⟩ := completed
  split at completed
  · simp only [State.accept?] at completed
    split_ifs at completed
    cases completed
    rfl
  · simp only [State.receive?, bind, Option.bind_eq_some_iff, Prod.exists] at completed
    obtain ⟨ringIndex, -, buf, br, -, completed⟩ := completed
    split_ifs at completed
    cases completed
    rfl
  · exact absurd rfl other
  · split_ifs at completed
    cases completed
    rfl
  · cases completed

/-- The kernel executes a write only if its range lies in the registered buffer. -/
theorem Reachable.written {cfg : Config} (reachable : Reachable cfg s)
    (completed : s.complete? index .written = some next) :
    ∃ (c : Completion) (data : List Char), s.app.uring.live[index]? = some c.sqe ∧ c.more = false ∧
      c.sqe.writes? s.app.memory = some data ∧ next.written = s.written ++ [data] ∧
      next.app = { s.app with uring := s.app.uring.post index c } := by
  have pool := reachable.poolInvariant
  simp only [State.complete?, bind, Option.bind_eq_some_iff] at completed
  obtain ⟨sqe, found, completed⟩ := completed
  cases request : sqe.request with
  | writeFixed fd buf nbytes offset k =>
    simp only [request, State.write?] at completed
    split_ifs at completed with inside
    cases completed
    have armed : sqe ∈ s.app.uring.armed := List.mem_append_right _ (List.mem_of_getElem? found)
    obtain ⟨owned, rfl⟩ := pool.slice (List.mem_append_left _ armed) request
    rw [pool.carved k (pool.lt_of_outstanding owned)] at inside
    have few : nbytes ≤ loggingBufsize := Nat.add_le_add_iff_left.mp inside.2.2
    refine ⟨⟨⟨sqe.userData, nbytes, cqeFlags none false⟩, sqe, none, false⟩, _, found, rfl, ?_, rfl, rfl⟩
    rw [Sqe.writes?, request]
    exact if_pos few
  | _ => simp [request] at completed

end Kernel

theorem Reachable.storedKept_step {cfg : Config} {s next : State} {event : Event}
    (reachable : Reachable cfg s) (stepped : step? cfg s event = some next) (kept : StoredKept s) :
    StoredKept next := by
  have contents (sqe : Sqe) (armed : sqe ∈ s.app.uring.armed) :
      sqe.writes? next.app.memory = sqe.writes? s.app.memory := reachable.writes?_kept stepped armed
  obtain ⟨running, step⟩ := step_of_step? reachable.requested stepped
  cases step with
  | stops _ stop => exact kept
  | @mainAccept answers slot ring =>
    have stored : Queues s.app { s.app with uring := slot.store (acceptSqe cfg.setup.socketfd answers) } :=
      (Queues.none s.app).store ring rfl rfl rfl rfl
    exact stored.storedKept kept contents rfl
  | mainLog log =>
    have line := @Queues.logEvent s.app s.app _ _ _ _ [] (by simp) (.refl _) rfl log
    exact line.storedKept kept contents rfl
  | mainSubmit =>
    have submitted : Queues s.app { s.app with uring := ioUringSubmit s.app.uring } :=
      (Queues.none s.app).same (.refl _) rfl rfl
    exact submitted.storedKept kept contents rfl
  | @poll count =>
    have polled : Queues s.app (s.app.poll count) :=
      (Queues.none s.app).same (IoUring.poll_armed ..) rfl rfl
    exact polled.storedKept kept contents rfl
  | @complete index outcome sqe next found posted =>
    have completed : s.complete? index outcome = some next := by
      simpa [step?, running] using stepped
    by_cases write : outcome = .written
    · subst write
      obtain ⟨c, data, live, last, stores, written, app⟩ := reachable.written completed
      have armed := @IoUring.post_armed s.app.uring index c c.sqe live
      have split := armed.filterMap (Sqe.writes? s.app.memory)
      simp only [last, Bool.false_eq_true, if_false, List.singleton_append,
        List.filterMap_cons_some stores] at split
      rw [StoredKept, posted.log, written, app, List.append_assoc]
      refine List.Subperm.trans ?_ kept
      exact (split.append_left s.written).subperm
    · obtain ⟨c, rfl, -, -, uring⟩ := posted.genuine
      have armed := @IoUring.post_armed s.app.uring index c c.sqe found
      rw [← uring] at armed
      have fewer (sqe : Sqe) (member : sqe ∈ next.app.uring.armed) : sqe ∈ s.app.uring.armed :=
        armed.mem_iff.mp (List.mem_append_right _ member)
      have split := armed.filterMap (Sqe.writes? s.app.memory)
      rw [List.filterMap_append] at split
      rw [StoredKept, posted.log, complete?_unwritten completed write,
        List.filterMap_congr fun sqe member => contents sqe (fewer sqe member)]
      refine List.Subperm.trans ?_ kept
      refine ((List.subperm_append_left _).mpr ?_)
      exact (List.sublist_append_right ..).subperm.trans split.subperm
  | @iterate index answers c branch found handled =>
    have finished : Queues s.app (branch.finish index) := handled.queues.same (.refl _) rfl rfl
    exact finished.storedKept kept contents rfl

theorem Reachable.storedKept {cfg : Config} {s : State} (reachable : Reachable cfg s) : StoredKept s := by
  obtain ⟨first, events, start, run⟩ := reachable
  have initial := initial_spec start
  have empty : StoredKept first := by
    simp [StoredKept, initial.uring, initial.written, ioUringQueueInit, IoUring.armed,
      IoUring.unconsumed]
  have step (t : State) (event : Event) (next : State) (holds : Reachable cfg t ∧ StoredKept t)
      (stepped : step? cfg t event = some next) : Reachable cfg next ∧ StoredKept next :=
    ⟨holds.1.step stepped, holds.1.storedKept_step stepped holds.2⟩
  exact (run?_preserves step ⟨.initial start, empty⟩ run).2

/-- What was written are lines of the log, as stored. -/
theorem Reachable.written_stored {cfg : Config} {s : State} (reachable : Reachable cfg s) :
    s.written.Subperm ((s.app.log.filter (·.InBuffer)).map LogRecord.stored) :=
  (List.sublist_append_left ..).subperm.trans reachable.storedKept

theorem LogRecord.stored_length_le {r : LogRecord} (inside : r.InBuffer) :
    r.stored.length ≤ loggingBufsize :=
  (List.length_take_le _ _).trans inside

/-- All but the last character of a line is stored as it is. -/
private theorem LogRecord.stored_take (r : LogRecord) :
    r.stored.take (loggingBufsize - 1) = r.line.take (loggingBufsize - 1) := by
  rw [stored, List.take_take, List.take_append_of_le_length (by rw [List.length_take]), List.take_take]
  exact List.take_eq_take_iff.mpr (by omega)

private theorem LogRecord.stored_length {r : LogRecord} (inside : r.InBuffer) :
    r.stored.length = r.line.length := by
  have most : r.line.length ≤ 256 := inside
  simp only [stored, List.length_take, List.length_append, List.length_singleton, loggingBufsize]
  omega

/-- Lines that fit in a buffer and end alike are stored differently if they differ. -/
theorem LogRecord.line_of_stored {r r' : LogRecord} (inside : r.InBuffer) (inside' : r'.InBuffer)
    {front front' : List Char} {last : Char} (line : r.line = front ++ [last])
    (line' : r'.line = front' ++ [last]) (same : r.stored = r'.stored) : r.line = r'.line := by
  have lengths := congrArg List.length same
  rw [stored_length inside, stored_length inside', line, line', List.length_append,
    List.length_append] at lengths
  have fronts := congrArg (fun text => (text.take (loggingBufsize - 1)).take front.length) same
  have short {front : List Char} {r : LogRecord} (inside : r.InBuffer) (line : r.line = front ++ [last]) :
      (r.line.take (loggingBufsize - 1)).take front.length = front := by
    have most : r.line.length ≤ 256 := inside
    rw [line, List.length_append, List.length_singleton] at most
    rw [line, List.take_take, loggingBufsize, min_eq_left (by omega), List.take_left]
  simp only [stored_take] at fronts
  rw [short inside line, Nat.add_right_cancel lengths, short inside' line'] at fronts
  rw [line, line', fronts]

/-- A line that fits is stored whole. -/
theorem LogRecord.stored_eq {r : LogRecord} (fits : r.line.length < loggingBufsize) : r.stored = r.line := by
  rw [stored, List.take_of_length_le (Nat.le_sub_one_of_lt fits), List.take_left]

end UringServer
