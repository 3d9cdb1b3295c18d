import UringServer.Lib.LeadsTo
import UringServer.Proofs.LogBuffers

/-! # What the server does at last

A server that is not stopped goes on forever, with a polling thread that keeps polling, a kernel that
leaves no write unfinished, and a loop that takes the oldest completion and keeps turning. Then every
request it queued gets to the kernel, and every log buffer comes back to the pool.
-/

namespace UringServer

open Fallible Replay Execution

/-- Everything queued was submitted. -/
def State.Published (s : State) : Prop := s.app.uring.ktail = s.app.uring.sqes.length

instance (s : State) : Decidable s.Published := inferInstanceAs (Decidable (_ = _))

/-- The loop submits what its handlers queue. -/
theorem Step.published {cfg : Config} {s next : State} {event : Event} (step : Step cfg s event next)
    (loop : event.inLoop) (published : s.Published) : next.Published := by
  cases step with
  | stops _ stop => exact published
  | mainAccept ring => cases loop
  | mainLog log => cases loop
  | mainSubmit => cases loop
  | poll => exact published
  | complete found posted =>
    obtain ⟨c, -, -, -, uring⟩ := posted.genuine
    rw [State.Published, uring]
    exact published
  | iterate found handled => rfl

/-- An unending run of the loop on which everybody keeps doing their part. -/
structure FairRun (cfg : Config) (x : Execution (step? cfg)) : Prop where
  reachable : Reachable cfg (x.state 0)
  published : (x.state 0).Published
  loop : ∀ n, (x.event n).inLoop
  /-- As long as something is published and not consumed, the polling thread gets to it. -/
  polls : ∀ n, (x.state n).app.uring.khead < (x.state n).app.uring.ktail →
    ∃ m ≥ n, ∃ count > 0, x.event m = .poll count
  /-- No write stays in the kernel forever. -/
  completes : ∀ n, ∀ sqe ∈ (x.state n).app.uring.live, sqe.request.opcode = .writeFixed →
    ∃ m ≥ n, sqe ∉ (x.state m).app.uring.live
  /-- As long as there is a completion, the loop gets to it. -/
  iterates : ∀ n, (x.state n).app.uring.cq ≠ [] → ∃ m ≥ n, ∃ answers, x.event m = .iterate 0 answers
  /-- Completions are taken in the order in which they were posted. -/
  oldest : ∀ n index answers, x.event n = .iterate index answers → index = 0

namespace FairRun

variable {cfg : Config} {x : Execution (step? cfg)}

theorem reaches (fair : FairRun cfg x) (n : ℕ) :
    Reachable cfg (x.state n) ∧ (x.state n).Published := by
  refine @Execution.always _ _ _ x (fun s => Reachable cfg s ∧ s.Published) ?_
    ⟨fair.reachable, fair.published⟩ n
  rintro n ⟨reachable, published⟩
  have taken := (step_of_step? reachable.requested (x.moves n)).2
  exact ⟨reachable.step (x.moves n), taken.published (fair.loop n) published⟩

theorem step (fair : FairRun cfg x) (n : ℕ) :
    Step cfg (x.state n) (x.event n) (x.state (n + 1)) :=
  (step_of_step? (fair.reaches n).1.requested (x.moves n)).2

end FairRun

section Consumed

variable {i : ℕ} {sqe : Sqe} {base : ℕ}

/-- The entry at position `i` is not consumed yet, or it is consumed and live. -/
structure Passed (i : ℕ) (sqe : Sqe) (base : ℕ) (ring : IoUring) : Prop where
  entry : ring.sqes[i]? = some sqe
  grown : base ≤ ring.khead
  consumed : i < ring.khead → sqe ∈ ring.live

theorem Passed.store {slot : SqeSlot} (passed : Passed i sqe base slot.ring) (other : Sqe) :
    Passed i sqe base (slot.store other) := by
  refine ⟨?_, passed.grown, passed.consumed⟩
  obtain ⟨bound, -⟩ := List.getElem?_eq_some_iff.mp passed.entry
  exact (List.getElem?_append_left bound).trans passed.entry

/-- What the polling thread passes is live from then on. -/
theorem Passed.poll {ring : IoUring} (passed : Passed i sqe base ring) (count : ℕ) :
    Passed i sqe base (ring.poll count) := by
  refine ⟨passed.entry, passed.grown.trans (Nat.le_add_right ..), ?_⟩
  intro beyond
  by_cases before : i < ring.khead
  · exact List.mem_append_left _ (passed.consumed before)
  · refine List.mem_append_right _ (List.mem_of_getElem? (i := i - ring.khead) ?_)
    have moved : i - ring.khead < ring.pollable count := by
      change i < ring.khead + ring.pollable count at beyond
      omega
    rw [List.getElem?_take_of_lt moved, IoUring.unconsumed, List.getElem?_drop,
      Nat.add_sub_of_le (not_lt.mp before)]
    exact passed.entry

/-- An entry that is not consumed stays in its place until it is. -/
theorem Step.passed {cfg : Config} {s next : State} {event : Event} (step : Step cfg s event next)
    (entry : s.app.uring.sqes[i]? = some sqe) (waits : s.app.uring.khead ≤ i) :
    Passed i sqe s.app.uring.khead next.app.uring := by
  have here : Passed i sqe s.app.uring.khead s.app.uring :=
    ⟨entry, le_rfl, fun beyond => absurd beyond (not_lt.mpr waits)⟩
  cases step with
  | stops _ stop => exact here
  | mainAccept ring =>
    rw [← ring] at here ⊢
    exact here.store _
  | mainLog log =>
    obtain ⟨node, slot, ring, same⟩ := logEvent_uring log
    rw [same, ← ring]
    rw [← ring] at here
    exact here.store _
  | mainSubmit => exact ⟨here.entry, here.grown, here.consumed⟩
  | poll => exact here.poll _
  | complete found posted =>
    obtain ⟨c, -, -, -, uring⟩ := posted.genuine
    rw [uring]
    exact ⟨entry, le_rfl, fun beyond => absurd beyond (not_lt.mpr waits)⟩
  | iterate found handled =>
    have branch := handled.preserves (fun slot sqe passed => Passed.store passed sqe)
      (fun ring count passed => Passed.poll passed count) here
    exact ⟨branch.entry, branch.grown, branch.consumed⟩

end Consumed

/-- The polling thread takes at least one entry if there is one. -/
private theorem poll_advances {cfg : Config} {s next : State} {count : ℕ} (positive : 0 < count)
    (some_left : s.app.uring.khead < s.app.uring.ktail)
    (stepped : step? cfg s (.poll count) = some next) :
    s.app.uring.khead < next.app.uring.khead := by
  have running := running_of_step? stepped
  simp only [step?, running, Option.isSome_none, Bool.false_eq_true, if_false,
    Option.some.injEq] at stepped
  rw [← stepped]
  change s.app.uring.khead < s.app.uring.khead + s.app.uring.pollable count
  unfold IoUring.pollable
  omega

/-- A live request is live after the next step, or its last completion was posted. -/
theorem Step.live {cfg : Config} {s next : State} {event : Event} (step : Step cfg s event next)
    {sqe : Sqe} (live : sqe ∈ s.app.uring.live) :
    sqe ∈ next.app.uring.live ∨ ∃ c ∈ next.app.uring.cq, c.sqe = sqe := by
  cases step with
  | stops _ stop => exact .inl live
  | mainAccept ring =>
    rw [← ring] at live
    exact .inl live
  | mainLog log =>
    obtain ⟨node, slot, ring, same⟩ := logEvent_uring log
    rw [← ring] at live
    rw [same]
    exact .inl live
  | mainSubmit => exact .inl live
  | poll => exact .inl (List.mem_append_left _ live)
  | @complete index outcome sqe' next found posted =>
    obtain ⟨c, rfl, -, -, uring⟩ := posted.genuine
    rw [uring]
    cases more : c.more with
    | true => simp [IoUring.post, more, live]
    | false =>
      obtain ⟨bound, here⟩ := List.getElem?_eq_some_iff.mp found
      have split := (List.getElem_cons_eraseIdx_perm bound).mem_iff.mpr live
      rcases List.mem_cons.mp split with rfl | stays
      · exact .inr ⟨c, by simp [IoUring.post], here.symm⟩
      · exact .inl (by simpa [IoUring.post, more] using stays)
  | iterate found handled =>
    have kept := @Handled.preserves _ _ _ _ (fun ring => sqe ∈ ring.live) handled
      (fun _ _ live => live) (fun _ _ live => List.mem_append_left _ live) live
    exact .inl kept

/-- The completion queue grows at its end, except that an iteration takes a completion out. -/
theorem Step.cq {cfg : Config} {s next : State} {event : Event} (step : Step cfg s event next)
    (running : next.stop = none) :
    ((∀ index answers, event ≠ .iterate index answers) ∧ s.app.uring.cq <+: next.app.uring.cq) ∨
      ∃ index answers c branch, event = .iterate index answers ∧ s.app.uring.cq[index]? = some c ∧
        Handled s.app c answers branch ∧
        next = { s with app := branch.finish index, handled := s.handled ++ [c] } := by
  cases step with
  | stops _ stop => cases running
  | mainAccept ring =>
    refine .inl ⟨by simp, ?_⟩
    rw [← ring]
    exact List.prefix_rfl
  | mainLog log =>
    refine .inl ⟨by simp, ?_⟩
    rw [logEvent_cq log]
  | mainSubmit => exact .inl ⟨by simp, List.prefix_rfl⟩
  | poll => exact .inl ⟨by simp, List.prefix_rfl⟩
  | complete found posted =>
    obtain ⟨c, -, -, -, uring⟩ := posted.genuine
    refine .inl ⟨by simp, ?_⟩
    rw [uring]
    exact List.prefix_append _ _
  | iterate found handled => exact .inr ⟨_, _, _, _, rfl, found, handled, rfl⟩

/-- Handling the completion of a write frees its buffer. -/
theorem Reachable.freed {cfg : Config} {s : State} (reachable : Reachable cfg s) {index : ℕ}
    {c : Completion} {branch : Appctx} {answers : Answers} (found : s.app.uring.cq[index]? = some c)
    (handled : Handled s.app c answers branch) {k : ℕ} (write : c.sqe.writeId? = some k) :
    k ∉ State.outstanding { s with app := branch.finish index, handled := s.handled ++ [c] } := by
  obtain ⟨before, after, split, erased⟩ := eraseIdx_split found
  have owned : s.outstanding.Nodup := by
    obtain ⟨free, -, all⟩ := reachable.poolInvariant.free
    rw [outstanding_eq reachable.requested]
    exact (all.nodup_iff.mpr List.nodup_range).of_append_right
  have armed : branch.uring.armed = s.app.uring.armed := by
    obtain ⟨fd, buf, nbytes, offset, request⟩ := Sqe.writeId?_eq_some_iff.mp write
    cases handled with
    | write => rfl
    | accept other => cases request.symm.trans other
    | recvmsg other => cases request.symm.trans other
    | send other => cases request.symm.trans other
  have left : State.outstanding { s with app := branch.finish index, handled := s.handled ++ [c] } =
      (branch.uring.armed ++ (branch.uring.cq.eraseIdx index).map (·.sqe)).filterMap Sqe.writeId? := rfl
  rw [left, armed, handled.cq, erased]
  rw [State.outstanding, State.pending, split] at owned
  simp only [List.map_append, List.map_cons, List.filterMap_append, List.filterMap_cons, write,
    ← List.append_assoc] at owned ⊢
  exact (List.nodup_cons.mp (List.perm_middle.nodup_iff.mp owned)).1

namespace FairRun

variable {cfg : Config} {x : Execution (step? cfg)} {sqe : Sqe}

/-- Every request in the queue gets to the kernel. -/
theorem consumed (fair : FairRun cfg x) (i : ℕ) (sqe : Sqe) :
    x.LeadsTo (fun s => s.app.uring.sqes[i]? = some sqe ∧ s.app.uring.khead ≤ i)
      (fun s => i < s.app.uring.khead ∧ sqe ∈ s.app.uring.live) := by
  have left (n : ℕ) (entry : (x.state n).app.uring.sqes[i]? = some sqe)
      (waits : (x.state n).app.uring.khead ≤ i) :
      (x.state n).app.uring.khead < (x.state n).app.uring.ktail := by
    rw [(fair.reaches n).2]
    exact waits.trans_lt (List.getElem?_eq_some_iff.mp entry).1
  refine leadsTo_of_rank (fun event => ∃ count > 0, event = .poll count)
    (fun s => i - s.app.uring.khead) ?_ ?_ ?_
  · rintro n ⟨entry, waits⟩
    have passed := (fair.step n).passed entry waits
    by_cases beyond : i < (x.state (n + 1)).app.uring.khead
    · exact .inr ⟨beyond, passed.consumed beyond⟩
    · exact .inl ⟨⟨passed.entry, not_lt.mp beyond⟩, Nat.sub_le_sub_left passed.grown i⟩
  · rintro n ⟨entry, waits⟩ ⟨count, positive, polled⟩
    have passed := (fair.step n).passed entry waits
    have advances := poll_advances positive (left n entry waits) (polled ▸ x.moves n)
    by_cases beyond : i < (x.state (n + 1)).app.uring.khead
    · exact .inr ⟨beyond, passed.consumed beyond⟩
    · exact .inl ⟨⟨passed.entry, not_lt.mp beyond⟩, Nat.sub_lt_sub_left (by omega) advances⟩
  · rintro n ⟨entry, waits⟩
    exact fair.polls n (left n entry waits)

/-- Every live write is completed. -/
theorem completed (fair : FairRun cfg x) (write : sqe.request.opcode = .writeFixed) :
    x.LeadsTo (fun s => sqe ∈ s.app.uring.live) (fun s => ∃ c ∈ s.app.uring.cq, c.sqe = sqe) :=
  leadsTo_of_leaves (fun n live => (fair.step n).live live)
    (fun n live => fair.completes n sqe live write)

/-- A completion keeps its place until the loop takes the one at the front. -/
theorem turn (fair : FairRun cfg x) {c : Completion} {place n : ℕ}
    (waits : (x.state n).app.uring.cq[place]? = some c) :
    ∃ m ≥ n, ∃ answers front branch, (x.state m).app.uring.cq[0]? = some front ∧
      Handled (x.state m).app front answers branch ∧
      x.state (m + 1) =
        { x.state m with app := branch.finish 0, handled := (x.state m).handled ++ [front] } ∧
      (x.state m).app.uring.cq[place]? = some c := by
  have cases (n : ℕ) := (fair.step n).cq (running_of_step? (x.moves (n + 1)))
  have keeps (n : ℕ) (other : ¬ ∃ answers, x.event n = .iterate 0 answers)
      (here : (x.state n).app.uring.cq[place]? = some c) :
      (x.state (n + 1)).app.uring.cq[place]? = some c := by
    rcases cases n with ⟨-, added, longer⟩ | ⟨index, answers, -, -, event, -⟩
    · rw [← longer, List.getElem?_append_left (List.getElem?_eq_some_iff.mp here).1]
      exact here
    · obtain rfl := fair.oldest n index answers event
      exact absurd ⟨answers, event⟩ other
  obtain ⟨m, later, ⟨answers, event⟩, there⟩ :=
    @meets _ _ _ x (fun s => s.app.uring.cq[place]? = some c)
      (fun event => ∃ answers, event = .iterate 0 answers) keeps n waits
      (fair.iterates n (List.ne_nil_of_mem (List.mem_of_getElem? waits)))
  rcases cases m with ⟨other, -⟩ | ⟨index, answers, front, branch, event, found, step, next⟩
  · exact absurd event (other 0 answers)
  · obtain rfl := fair.oldest m index answers event
    exact ⟨m, later, answers, front, branch, found, step, next, there⟩

/-- A completion moves to the front of the queue, and then the loop handles it. -/
theorem served (fair : FairRun cfg x) {c : Completion} (place n : ℕ)
    (waits : (x.state n).app.uring.cq[place]? = some c) :
    ∃ m ≥ n, ∃ answers branch, (x.state m).app.uring.cq[0]? = some c ∧
      Handled (x.state m).app c answers branch ∧
      x.state (m + 1) =
        { x.state m with app := branch.finish 0, handled := (x.state m).handled ++ [c] } := by
  induction place generalizing n with
  | zero =>
    obtain ⟨m, later, answers, front, branch, found, step, next, there⟩ := fair.turn waits
    obtain rfl : front = c := Option.some.inj (found.symm.trans there)
    exact ⟨m, later, answers, branch, found, step, next⟩
  | succ place ih =>
    obtain ⟨m, later, answers, front, branch, found, step, next, there⟩ := fair.turn waits
    have moved : (x.state (m + 1)).app.uring.cq[place]? = some c := by
      rw [next]
      change (branch.uring.cq.eraseIdx 0)[place]? = some c
      rw [step.cq, List.getElem?_eraseIdx_of_ge (Nat.zero_le _), there]
    obtain ⟨k, last, reached⟩ := ih (m + 1) moved
    exact ⟨k, (later.trans (Nat.le_succ m)).trans last, reached⟩

/-- Every outstanding log buffer comes back to the pool. -/
theorem freed (fair : FairRun cfg x) (k : ℕ) :
    x.LeadsTo (fun s => k ∈ s.outstanding) (fun s => k ∉ s.outstanding) := by
  have answered {sqe : Sqe} (write : sqe.writeId? = some k) :
      x.LeadsTo (fun s => ∃ c ∈ s.app.uring.cq, c.sqe = sqe) (fun s => k ∉ s.outstanding) := by
    rintro n ⟨c, member, rfl⟩
    obtain ⟨place, found⟩ := List.mem_iff_getElem?.mp member
    obtain ⟨m, later, answers, branch, front, step, next⟩ := fair.served place n found
    exact ⟨m + 1, later.trans (Nat.le_succ m), next ▸ (fair.reaches m).1.freed front step write⟩
  have live {sqe : Sqe} (write : sqe.writeId? = some k) :
      x.LeadsTo (fun s => sqe ∈ s.app.uring.live) (fun s => k ∉ s.outstanding) := by
    obtain ⟨fd, buf, nbytes, offset, request⟩ := Sqe.writeId?_eq_some_iff.mp write
    exact (fair.completed (by rw [request]; rfl)).trans (answered write)
  intro n outstanding
  obtain ⟨sqe, pending, write⟩ := List.mem_filterMap.mp outstanding
  rcases List.mem_append.mp pending with armed | posted
  · rcases List.mem_append.mp armed with queued | here
    · obtain ⟨j, found⟩ := List.mem_iff_getElem?.mp queued
      rw [IoUring.unconsumed, List.getElem?_drop] at found
      obtain ⟨m, later, -, there⟩ := fair.consumed _ sqe n ⟨found, Nat.le_add_right ..⟩
      obtain ⟨k, last, free⟩ := live write m there
      exact ⟨k, le_trans later last, free⟩
    · exact live write n here
  · obtain ⟨c, member, same⟩ := List.mem_map.mp posted
    exact answered write n ⟨c, member, same⟩

end FairRun

/-- On every unending fair run each request that was queued is consumed at last, and each outstanding
log buffer comes back to the pool. -/
theorem fair_run_progresses {cfg : Config} {x : Execution (step? cfg)} (fair : FairRun cfg x) :
    (∀ i, x.LeadsTo (fun s => i < s.app.uring.sqes.length) (fun s => i < s.app.uring.khead)) ∧
      ∀ k, x.LeadsTo (fun s => k ∈ s.outstanding) (fun s => k ∉ s.outstanding) := by
  refine ⟨?_, ?_⟩
  · intro i n queued
    by_cases waits : (x.state n).app.uring.khead ≤ i
    · obtain ⟨m, later, passed, -⟩ :=
        fair.consumed i _ n ⟨List.getElem?_eq_getElem queued, waits⟩
      exact ⟨m, later, passed⟩
    · exact ⟨n, le_rfl, not_le.mp waits⟩
  · exact fair.freed

/-- Where everything is consumed, polling changes nothing. -/
private theorem poll_rests {cfg : Config} {s : State} (running : s.stop = none)
    (idle : s.app.uring.ktail = s.app.uring.khead) (count : ℕ) :
    step? cfg s (.poll count) = some s := by
  have rests : s.app.uring.poll count = s.app.uring := by
    generalize s.app.uring = ring at idle
    cases ring
    simp_all [IoUring.poll, IoUring.pollable]
  simp only [step?, running, Option.isSome_none, Bool.false_eq_true, if_false, Appctx.poll, rests]
  rw [← running]

/-- A tape that leaves nothing to do, and then only the polling thread: a fair run. -/
theorem FairRun.settled {cfg : Config} {source target : State} {before : List Event}
    {answers : Answers} (reachable : Reachable cfg source) (published : source.Published)
    (run : run? (step? cfg) source (before ++ [.iterate 0 answers]) = some target)
    (loop : ∀ event ∈ before, event.inLoop)
    (oldest : ∀ event ∈ before, ∀ index answers, event = .iterate index answers → index = 0)
    (running : target.stop = none) (idle : target.app.uring.ktail = target.app.uring.khead)
    (live : ∀ sqe ∈ target.app.uring.live, sqe.request.opcode ≠ .writeFixed)
    (done : target.app.uring.cq = []) :
    FairRun cfg (Execution.settled run (poll_rests running idle 1)) := by
  have length : (before ++ [Event.iterate 0 answers]).length = before.length + 1 := by simp
  have rest (n : ℕ) := @settled_of_le _ _ _ _ _ _ _ run (poll_rests running idle 1)
    (n + (before.length + 1)) (length.trans_le (Nat.le_add_left ..))
  refine ⟨reachable, published, ?_, ?_, ?_, ?_, ?_⟩
  · intro n
    rcases @settled_event_mem _ _ _ _ _ _ _ run (poll_rests running idle 1) n with tape | rests
    · rcases List.mem_append.mp tape with early | last
      · exact loop _ early
      · rw [List.mem_singleton.mp last]
        rfl
    · rw [rests]
      rfl
  · exact fun n _ => ⟨_, Nat.le_add_right .., 1, Nat.one_pos, (rest n).2⟩
  · intro n sqe _ write
    refine ⟨_, Nat.le_add_right n (before.length + 1), ?_⟩
    rw [(rest n).1]
    exact fun member => live sqe member write
  · intro n waits
    have early : n ≤ before.length := by
      by_contra late
      refine waits ?_
      rw [(settled_of_le (by omega)).1]
      exact done
    refine ⟨before.length, early, answers, ?_⟩
    change (before ++ [Event.iterate 0 answers]).getD before.length _ = _
    simp
  · intro n index other event
    rcases @settled_event_mem _ _ _ _ _ _ _ run (poll_rests running idle 1) n with tape | rests
    · rcases List.mem_append.mp tape with early | last
      · exact oldest _ early index other event
      · cases event.symm.trans (List.mem_singleton.mp last)
        rfl
    · cases event.symm.trans rests

/-- One line is logged and written; the loop handles the write and is idle from then on. -/
theorem fair_run_progresses_written : ∃ x : Execution (step? calmConfig), FairRun calmConfig x ∧
    15 ∈ (x.state 0).outstanding ∧ ∃ m ≥ 0, 15 ∉ (x.state m).outstanding := by
  let events : List Event :=
    [.mainLog .info "Server starting".toList calm, .mainSubmit calm, .poll 1, .complete 0 .written]
  have passed : (replay? calmConfig events).any (fun s =>
      (run? (step? calmConfig) s ([] ++ [.iterate 0 calm])).any fun target =>
        s.Published ∧ 15 ∈ s.outstanding ∧ target.stop = none ∧
        target.app.uring.ktail = target.app.uring.khead ∧ target.app.uring.live = [] ∧
        target.app.uring.cq = []) = true := by decide +kernel
  obtain ⟨first, s, start, reached, holds⟩ := exists_of_replay? passed
  obtain ⟨target, run, holds⟩ := (Option.any_eq_true ..).mp holds
  obtain ⟨published, outstanding, running, idle, live, done⟩ := of_decide_eq_true holds
  have fair := FairRun.settled ⟨first, events, start, reached⟩ published run (by simp) (by simp)
    running idle (by simp [live]) done
  exact ⟨_, fair, outstanding, (fair_run_progresses fair).2 15 0 outstanding⟩

end UringServer
