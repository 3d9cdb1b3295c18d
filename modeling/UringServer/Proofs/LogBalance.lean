import UringServer.Proofs.Conversation
import UringServer.Proofs.LogBuffers

/-! # The balance of lines, requests and buffers

Every accept and every message that is handled queues two requests, one of them the write of a line;
nothing else does after the start-up. So the numbers of lines, requests and outstanding log buffers
follow from how many completions of which kind were handled, and the process runs out of buffers at the
accept or message that is twelve ahead of the writes.
-/

namespace UringServer

open Fallible Replay

namespace State

/-- How many accepts and messages were handled. -/
def answered (s : State) : ℕ := s.handled.countP (·.sqe.request.isMultishot)

/-- The ids of the log buffers that were given back, oldest first. -/
def givenBack (s : State) : List ℕ := s.handled.filterMap (·.sqe.writeId?)

end State

/-- A write has no completion but its last. -/
private theorem writeIds_last {completions : List Completion} (genuine : ∀ c ∈ completions, c.Genuine) :
    ((completions.filter (!·.more)).map (·.sqe)).filterMap Sqe.writeId? =
      completions.filterMap (·.sqe.writeId?) := by
  rw [List.filterMap_map, List.filterMap_filter]
  refine List.filterMap_congr fun c member => ?_
  have single := (genuine c member).single
  cases more : c.more with
  | false => rfl
  | true =>
    unfold Sqe.writeId?
    cases request : c.sqe.request with
    | writeFixed => simp [request, Request.opcode, more] at single
    | _ => simp

section Conserved

variable {cfg : Config} {s : State}

/-- The writes in the queue are those of the lines, in order. -/
theorem Reachable.queued_writes (reachable : Reachable cfg s) :
    s.app.uring.sqes.filterMap Sqe.writeId? = s.app.log.map (·.bid) := by
  obtain ⟨-, g, -, -, -, renders, -⟩ := reachable.conversing
  have firsts := congrArg (List.map Prod.fst) renders.lines
  rw [List.map_filterMap, List.map_map] at firsts
  refine Eq.trans (List.filterMap_congr fun sqe _ => ?_) firsts
  unfold Sqe.line? Sqe.writeId?
  cases sqe.request <;> rfl

/-- Every line logged has its write outstanding or its buffer given back, once. -/
theorem Reachable.conserved (reachable : Reachable cfg s) :
    (s.outstanding ++ s.givenBack).Perm (s.app.log.map (·.bid)) := by
  have genuine (c : Completion) (member : c ∈ s.app.uring.cq ++ s.handled) : c.Genuine :=
    (reachable.requested.posted c member).2
  have accounted := reachable.accounted.filterMap Sqe.writeId?
  rw [List.filterMap_append, State.ended, writeIds_last genuine, reachable.queued_writes,
    List.filterMap_append] at accounted
  rw [State.outstanding, State.pending, List.filterMap_append, List.filterMap_map, List.append_assoc]
  exact accounted

end Conserved

/-- How many requests an event of the start-up queues. -/
def Event.requests : Event → ℕ
  | .mainAccept _ => 1
  | .mainLog _ _ _ => 1
  | _ => 0

/-- How many lines an event of the start-up logs. -/
def Event.lines : Event → ℕ
  | .mainLog _ _ _ => 1
  | _ => 0

/-- Besides the given numbers, one line and two requests for each accept and message handled. -/
structure Balanced (lines requests : ℕ) (s : State) : Prop where
  lines : s.app.log.length = lines + s.answered
  requests : s.app.uring.sqes.length = requests + 2 * s.answered

section Balanced

variable {cfg : Config} {lines requests : ℕ} {s next : State} {event : Event}

/-- A handler queues two requests and logs one line for an accept or a message, and nothing else. -/
theorem Handled.balanced {branch : Appctx} {c : Completion} {answers : Answers} {index : ℕ}
    (handled : Handled s.app c answers branch) (balanced : Balanced lines requests s) :
    Balanced lines requests { s with app := branch.finish index, handled := s.handled ++ [c] } := by
  obtain ⟨node, sqes⟩ := handled.queued
  have queue := congrArg List.length sqes
  have log := congrArg List.length handled.log
  have answered : State.answered { s with app := branch.finish index, handled := s.handled ++ [c] } =
      s.answered + if c.sqe.request.isMultishot then 1 else 0 := by
    simp [State.answered, List.countP_append, List.countP_singleton]
  have line := balanced.lines
  have request := balanced.requests
  simp only [List.length_append, List.length_map] at queue log
  refine ⟨?_, ?_⟩
  · rw [answered]
    change branch.log.length = _
    rw [log, line]
    cases kind : c.sqe.request <;> simp [Appctx.logArgs, kind, Request.isMultishot] <;> omega
  · rw [answered]
    change branch.uring.sqes.length = _
    rw [queue, request]
    cases kind : c.sqe.request <;> simp [Appctx.queuedFor, kind, Request.isMultishot] <;> omega

theorem Step.balanced (step : Step cfg s event next) (balanced : Balanced lines requests s)
    (runs : next.stop = none ∨ event.lines = 0 ∧ event.requests = 0) :
    Balanced (lines + event.lines) (requests + event.requests) next := by
  have line := balanced.lines
  have request := balanced.requests
  cases step with
  | stops _ stop =>
    obtain ⟨lines, requests⟩ := runs.resolve_left (by simp)
    rw [lines, requests]
    exact ⟨line, request⟩
  | @mainAccept answers slot ring =>
    have queue : (slot.store (acceptSqe cfg.setup.socketfd answers)).sqes.length =
        s.app.uring.sqes.length + 1 := by
      rw [← ring]
      exact List.length_append
    refine ⟨line, queue.trans ?_⟩
    rw [request]
    exact Nat.add_right_comm ..
  | mainLog log =>
    obtain ⟨r, write, -, -, -, sqes, records⟩ := logEvent_line log
    refine ⟨?_, ?_⟩
    · rw [records, List.length_append, line]
      exact Nat.add_right_comm ..
    · rw [sqes, List.length_append, request]
      exact Nat.add_right_comm ..
  | mainSubmit => exact ⟨line, request⟩
  | poll => exact ⟨line, request⟩
  | complete found posted =>
    obtain ⟨c, -, -, handled, uring⟩ := posted.genuine
    refine ⟨?_, ?_⟩
    · rw [State.answered, handled, posted.log]
      exact line
    · rw [State.answered, handled, uring]
      exact request
  | iterate found handled => exact handled.balanced balanced

/-- As long as the process runs, a tape adds what its events add. -/
theorem Reachable.balanced {s t : State} {events : List Event} (reachable : Reachable cfg s)
    (run : run? (step? cfg) s events = some t) (running : t.stop = none)
    (balanced : Balanced lines requests s) :
    Balanced (lines + (events.map Event.lines).sum) (requests + (events.map Event.requests).sum) t := by
  induction events generalizing s lines requests with
  | nil =>
    cases run
    exact balanced
  | cons event rest ih =>
    obtain ⟨next, stepped, run⟩ := run?_cons_iff.mp run
    have runs : next.stop = none :=
      @run?_reflects _ _ _ next t rest (fun u => u.stop = none)
        (fun _ _ _ stepped _ => running_of_step? stepped) run running
    have here := (step_of_step? reachable.requested stepped).2.balanced balanced (.inl runs)
    have there := ih (reachable.step stepped) run here
    simpa only [List.map_cons, List.sum_cons, Nat.add_assoc] using there

/-- The start-up logs four lines and queues five requests. -/
theorem ServerRun.balanced {answers : Fin 6 → Answers} {events : List Event}
    (run : ServerRun cfg answers events s) : Balanced 4 5 s := by
  obtain ⟨first, start, reached⟩ := run.reached
  have initial := initial_spec start
  have begun : Balanced 0 0 first := by
    refine ⟨?_, ?_⟩
    · simp [initial.log, initial.handled, State.answered]
    · simp [initial.uring, initial.handled, State.answered, ioUringQueueInit]
  -- The submission may stop the process, but the requests were queued before.
  have split : mainEvents answers ++ events =
      (mainEvents answers).dropLast ++ .mainSubmit (answers 5) :: events := rfl
  rw [split] at reached
  obtain ⟨queued, startup, rest⟩ := run?_append_iff.mp reached
  obtain ⟨next, stepped, -⟩ := run?_cons_iff.mp rest
  have reachable := (Reachable.initial start).trans startup
  have four : Balanced 4 5 queued :=
    (Reachable.initial start).balanced startup (running_of_step? stepped) begun
  let Quiet (event : Event) : Prop := event.lines = 0 ∧ event.requests = 0
  refine @Reachable.preserves cfg Quiet (Balanced 4 5) _ _ _ reachable rest ?_ four ?_
  · intro event member
    rcases List.mem_cons.mp member with rfl | looping
    · exact ⟨rfl, rfl⟩
    · have active := run.inLoop event looping
      cases event with
      | mainAccept answers => cases active
      | mainLog level fmt answers => cases active
      | _ => exact ⟨rfl, rfl⟩
  · rintro s event next - quiet balanced step
    have after := step.balanced balanced (.inr quiet)
    rwa [quiet.1, quiet.2] at after

end Balanced

/-- The writes outstanding are the lines less those whose buffer was given back. -/
theorem ServerRun.outstanding_count {setup : Setup} {answers : Fin 6 → Answers} {events : List Event}
    {s : State} (run : ServerRun (mainConfig setup) answers events s) :
    s.outstanding.length + s.givenBack.length = 4 + s.answered := by
  obtain ⟨first, start, reached⟩ := run.reached
  have reachable : Reachable (mainConfig setup) s := ⟨first, _, start, reached⟩
  have count := reachable.conserved.length_eq
  rwa [List.length_append, List.length_map, run.balanced.lines] at count

/-- In the server as `main` starts it, a pop finds a buffer while fewer than 16 log writes are
outstanding; the guard ends the process at exactly those steps that pop when all 16 are, twelve accepts
and messages ahead of the writes. -/
theorem pool_exhausted_iff {setup : Setup} {answers : Fin 6 → Answers} {events : List Event} {s : State}
    (run : ServerRun (mainConfig setup) answers events s) :
    s.outstanding.length ≤ 16 ∧
    ((bufpoolPop s.app.bufpool).isSome ↔ s.outstanding.length < 16) ∧
    (∀ event next, step? (mainConfig setup) s event = some next →
      (next.stop = some (.assertNotNull .regbuf) ↔ s.CallsLog event ∧ s.outstanding.length = 16)) ∧
    s.answered ≤ s.givenBack.length + 12 ∧
    (s.outstanding.length = 16 ↔ s.answered = s.givenBack.length + 12) := by
  have count := run.outstanding_count
  obtain ⟨first, start, reached⟩ := run.reached
  have reachable : Reachable (mainConfig setup) s := ⟨first, _, start, reached⟩
  have requested := reachable.requested
  obtain ⟨most, empty⟩ := reachable.poolInvariant.empty_iff
  rw [← outstanding_eq requested] at most empty
  change s.outstanding.length ≤ 16 at most
  change _ ↔ s.outstanding.length = 16 at empty
  refine ⟨most, ?_, ?_, by omega, by omega⟩
  · rw [Option.isSome_iff_ne_none, ne_eq, bufpoolPop_eq_none_iff, empty]
    omega
  · intro event next stepped
    rw [stop_iff_ends stepped, ends_regbuf_iff requested, empty]

/-- Connections are accepted one after the other; every entry queued for them is consumed, and no
write is completed. -/
def acceptBurst (connections : ℕ) : List Event :=
  .poll 5 :: (List.range connections).flatMap fun i =>
    [.complete 0 (.accepted (5 + i) true), .iterate 0 calm, .poll 2]

theorem pool_exhausted_iff_twelve : ∃ s, ServerRun calmConfig (fun _ => calm) (acceptBurst 12) s ∧
    s.outstanding.length = 16 ∧ ((bufpoolPop s.app.bufpool).isSome ↔ s.outstanding.length < 16) ∧
    s.answered = s.givenBack.length + 12 := by
  have passed : (replay? calmConfig (mainEvents (fun _ => calm) ++ acceptBurst 12)).any
      (fun s => s.outstanding.length = 16) = true := by decide +kernel
  obtain ⟨s, run, full⟩ := exists_serverRun (by decide) passed
  have sixteen : s.outstanding.length = 16 := of_decide_eq_true full
  obtain ⟨-, popped, -, -, ahead⟩ := pool_exhausted_iff run
  exact ⟨s, run, sixteen, popped, ahead.mp sixteen⟩

/-- After twelve connections the pool is empty; the next one ends the process in `log_event`. -/
theorem pool_exhausted_thirteen : ∃ s, ServerRun calmConfig (fun _ => calm)
      (acceptBurst 12 ++ [.complete 0 (.accepted 17 true), .iterate 0 calm]) s ∧
    s.stop = some (.assertNotNull .regbuf) ∧ s.app.uring.unconsumed = [] := by
  have passed : (replay? calmConfig (mainEvents (fun _ => calm) ++
      (acceptBurst 12 ++ [.complete 0 (.accepted 17 true), .iterate 0 calm]))).any
      (fun s => s.stop = some (.assertNotNull .regbuf) ∧ s.app.uring.unconsumed = []) = true := by
    decide +kernel
  obtain ⟨s, run, holds⟩ := exists_serverRun (by decide) passed
  exact ⟨s, run, of_decide_eq_true holds⟩

/-- What the numbers of completions handled say about a server with the pool of `main`. -/
structure ServerBalance (setup : Setup) (s : State) : Prop where
  /-- Every line's buffer is outstanding or was given back. -/
  buffers : (s.outstanding ++ s.givenBack).Perm (s.app.log.map (·.bid))
  lines : s.app.log.length = 4 + s.answered
  requests : s.app.uring.sqes.length = 5 + 2 * s.answered
  /-- The accept or message that finds no buffer is twelve ahead of the writes handled. -/
  exhausted : ∀ event next, step? (mainConfig setup) s event = some next →
    (next.stop = some (.assertNotNull .regbuf) ↔ s.CallsLog event ∧ s.answered = s.givenBack.length + 12)

/-- In every run of the server lines, requests and outstanding buffers are determined by how many
accepts, messages and writes were handled, and so is the step that finds no free buffer. -/
theorem server_balance {setup : Setup} {answers : Fin 6 → Answers} {events : List Event} {s : State}
    (run : ServerRun (mainConfig setup) answers events s) : ServerBalance setup s := by
  have balanced := run.balanced
  obtain ⟨first, start, reached⟩ := run.reached
  have reachable : Reachable (mainConfig setup) s := ⟨first, _, start, reached⟩
  have requested := reachable.requested
  have conserved := reachable.conserved
  refine ⟨conserved, balanced.lines, balanced.requests, ?_⟩
  intro event next stepped
  have empty := reachable.poolInvariant.empty_iff.2
  rw [← outstanding_eq requested] at empty
  change _ ↔ s.outstanding.length = 16 at empty
  have count := run.outstanding_count
  rw [stop_iff_ends stepped, ends_regbuf_iff requested, empty]
  refine and_congr_right fun _ => ?_
  omega

/-- Twelve connections are one too many for the next. -/
theorem server_balance_twelve : ∃ s, ServerRun calmConfig (fun _ => calm) (acceptBurst 12) s ∧
    s.answered = 12 ∧ s.givenBack = [] ∧ ServerBalance calmSetup s := by
  have passed : (replay? calmConfig (mainEvents (fun _ => calm) ++ acceptBurst 12)).any
      (fun s => s.answered = 12 ∧ s.givenBack = []) = true := by decide +kernel
  obtain ⟨s, run, holds⟩ := exists_serverRun (by decide) passed
  obtain ⟨answered, givenBack⟩ := of_decide_eq_true holds
  exact ⟨s, run, answered, givenBack, server_balance run⟩

end UringServer
