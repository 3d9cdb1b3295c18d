import UringServer.Proofs.StoredLines

/-! # The file behind stderr

What the kernel stores are the lines that were printed. But every write asks for offset zero. The file is
therefore never longer than one of the lines, and it holds all of them only if there is at most one.
-/

namespace UringServer

open Fallible Replay PositionalFile

/-- The file is what the writes made of it, each at offset zero, and no line is empty. -/
structure WrittenAtZero (s : State) : Prop where
  offsets : ∀ sqe ∈ s.app.uring.sqes, ∀ fd buf nbytes offset k,
    sqe.request = .writeFixed fd buf nbytes offset k → offset = 0
  file : s.file = s.written.foldl (pwrite nul · 0 ·) []
  nonempty : ∀ r ∈ s.app.log, r.line ≠ []

private theorem queuedFor_offsets (self : Appctx) (c : Completion) (answers : Answers) (node : ℕ) :
    ∀ sqe ∈ self.queuedFor c answers node, ∀ fd buf nbytes offset k,
      sqe.request = .writeFixed fd buf nbytes offset k → offset = 0 := by
  intro sqe member fd buf nbytes offset k write
  unfold Appctx.queuedFor at member
  cases request : c.sqe.request <;> rw [request] at member
  · rcases List.mem_pair.mp member with rfl | rfl <;> cases write
    rfl
  · rcases List.mem_pair.mp member with rfl | rfl <;> cases write
    rfl
  · cases member
  · cases member

theorem WrittenAtZero.add {s next : State} (zero : WrittenAtZero s)
    (nonempty : ∀ r ∈ next.app.log, r.line ≠ []) (added : List Sqe)
    (sqes : next.app.uring.sqes = s.app.uring.sqes ++ added)
    (offsets : ∀ sqe ∈ added, ∀ fd buf nbytes offset k,
      sqe.request = .writeFixed fd buf nbytes offset k → offset = 0)
    (file : next.file = s.file) (written : next.written = s.written) : WrittenAtZero next := by
  refine ⟨?_, by rw [file, written, zero.file], nonempty⟩
  intro sqe member
  rw [sqes] at member
  exact (List.mem_append.mp member).elim (zero.offsets sqe) (offsets sqe)

theorem Step.writtenAtZero {cfg : Config} {s next : State} {event : Event}
    (step : Step cfg s event next) (requested : Requested s.app.uring s.handled)
    (zero : WrittenAtZero s) : WrittenAtZero next := by
  have nonempty : ∀ r ∈ next.app.log, r.line ≠ [] := by
    rcases step.record with same | ⟨regbuf, pool, r, -, same, -, line⟩
    · exact same ▸ zero.nonempty
    · intro other member
      rw [same] at member
      rcases List.mem_append.mp member with old | new
      · exact zero.nonempty other old
      · exact List.mem_singleton.mp new ▸ line
  cases step with
  | stops _ stop => exact ⟨zero.offsets, zero.file, zero.nonempty⟩
  | @mainAccept answers slot ring =>
    refine zero.add nonempty [acceptSqe cfg.setup.socketfd answers] ?_ ?_ rfl rfl
    · rw [← ring]
      rfl
    · intro sqe member fd buf nbytes offset k write
      obtain rfl := List.mem_singleton.mp member
      cases write
  | mainLog log =>
    obtain ⟨node, sqes⟩ := logEvent_sqes log
    refine zero.add nonempty _ sqes ?_ rfl rfl
    intro sqe member fd buf nbytes offset k write
    obtain rfl := List.mem_singleton.mp member
    cases write
    rfl
  | mainSubmit => exact ⟨zero.offsets, zero.file, zero.nonempty⟩
  | poll => exact ⟨zero.offsets, zero.file, zero.nonempty⟩
  | @complete index outcome sqe next found posted =>
    have origin := requested.live sqe (List.mem_of_getElem? found)
    cases posted with
    | written request =>
      refine ⟨zero.offsets, ?_, nonempty⟩
      simp only [zero.offsets sqe origin _ _ _ _ _ request, zero.file, List.foldl_append,
        List.foldl_cons, List.foldl_nil]
    | _ => exact ⟨zero.offsets, zero.file, nonempty⟩
  | iterate found handled =>
    obtain ⟨node, sqes⟩ := handled.queued
    exact zero.add nonempty _ sqes (queuedFor_offsets _ _ _ node) rfl rfl

theorem Reachable.writtenAtZero {cfg : Config} {s : State} (reachable : Reachable cfg s) :
    WrittenAtZero s := by
  refine reachable.invariant ?_ fun s event next here zero step => step.writtenAtZero here.requested zero
  intro first initial
  refine ⟨?_, ?_, ?_⟩
  · simp [initial.uring, ioUringQueueInit]
  · rw [initial.file, initial.written]
    rfl
  · simp [initial.log]

/-- When every line was written, what was written are the lines, in some order. -/
theorem Reachable.written_perm {cfg : Config} {s : State} (reachable : Reachable cfg s)
    (fits : ∀ r ∈ s.app.log, r.line.length < loggingBufsize)
    (done : s.written.length = s.app.log.length) : s.written.Perm (s.app.log.map (·.line)) := by
  have inside : s.app.log.filter (·.InBuffer) = s.app.log :=
    List.filter_eq_self.mpr fun r member => decide_eq_true (fits r member).le
  have whole : s.app.log.map LogRecord.stored = s.app.log.map (·.line) :=
    List.map_congr_left fun r member => LogRecord.stored_eq (fits r member)
  have stored := reachable.written_stored
  rw [inside, whole] at stored
  exact stored.perm_of_length_le (by rw [List.length_map, done])

/-- When every line was written, the file holds all lines exactly if there is at most one. -/
theorem file_holds_iff_le_one {cfg : Config} {s : State} (reachable : Reachable cfg s)
    (fits : ∀ r ∈ s.app.log, r.line.length < loggingBufsize)
    (done : s.written.length = s.app.log.length) :
    Holds s.file (s.app.log.map (·.line)) ↔ s.app.log.length ≤ 1 := by
  have zero := reachable.writtenAtZero
  have lines := reachable.written_perm fits done
  constructor
  · intro held
    rw [← List.length_map (f := LogRecord.line)]
    refine held.le_one ?_ ?_
    · intro line member
      obtain ⟨r, logged, rfl⟩ := List.mem_map.mp member
      exact zero.nonempty r logged
    · intro some
      rw [zero.file]
      rcases foldl_pwrite_zero_length nul [] s.written with empty | ⟨data, member, bound⟩
      · obtain ⟨line, member⟩ := List.exists_mem_of_ne_nil _ some
        exact ⟨line, member, empty.trans (Nat.zero_le _)⟩
      · exact ⟨data, lines.mem_iff.mp member, bound⟩
  · intro few
    rw [zero.file]
    rcases Nat.le_one_iff_eq_zero_or_eq_one.mp few with none | one
    · rw [List.length_eq_zero_iff.mp none] at lines ⊢
      rw [lines.eq_nil]
      exact holds_nil
    · obtain ⟨r, single⟩ := List.length_eq_one_iff.mp one
      rw [single] at lines ⊢
      rw [List.perm_singleton.mp lines]
      simp only [List.map_cons, List.map_nil, List.foldl_cons, List.foldl_nil, pwrite_zero,
        List.drop_nil, List.append_nil]
      exact holds_singleton _

/-- One line, written before any other is logged. -/
theorem file_holds_iff_le_one_single : ∃ s, Reachable calmConfig s ∧
    (s.app.log.map (·.line.length)) = [s.file.length] ∧
    (Holds s.file (s.app.log.map (·.line)) ↔ s.app.log.length ≤ 1) := by
  let events : List Event :=
    [.mainLog .info "Server starting".toList calm, .mainSubmit calm, .poll 1, .complete 0 .written]
  have passed : (replay? calmConfig events).any (fun s =>
      (∀ r ∈ s.app.log, r.line.length < loggingBufsize) ∧ s.written.length = s.app.log.length ∧
      (s.app.log.map (·.line.length)) = [s.file.length]) = true := by decide +kernel
  obtain ⟨first, s, start, run, holds⟩ := exists_of_replay? passed
  obtain ⟨fits, done, lengths⟩ := of_decide_eq_true holds
  have reachable : Reachable calmConfig s := ⟨first, events, start, run⟩
  exact ⟨s, reachable, lengths, file_holds_iff_le_one reachable fits done⟩

/-- The four lines of the start-up are all written, and the file is as long as one of them. -/
theorem file_overwritten_startup : ∃ s, ServerRun calmConfig (fun _ => calm)
      [.poll 5, .complete 1 .written, .complete 1 .written, .complete 1 .written,
        .complete 1 .written] s ∧
    (∀ r ∈ s.app.log, r.line.length < loggingBufsize) ∧
    s.app.log.length = 4 ∧ s.written.length = 4 ∧
    s.file.length < ((s.app.log.map (·.line)).map List.length).sum ∧
    ¬ Holds s.file (s.app.log.map (·.line)) := by
  have passed : (replay? calmConfig (mainEvents (fun _ => calm) ++
      [.poll 5, .complete 1 .written, .complete 1 .written, .complete 1 .written,
        .complete 1 .written])).any (fun s => (∀ r ∈ s.app.log, r.line.length < loggingBufsize) ∧
        s.app.log.length = 4 ∧ s.written.length = 4 ∧
        s.file.length < ((s.app.log.map (·.line)).map List.length).sum) = true := by decide +kernel
  obtain ⟨s, run, holds⟩ := exists_serverRun rfl passed
  obtain ⟨fits, logged, written, shorter⟩ := of_decide_eq_true holds
  exact ⟨s, run, fits, logged, written, shorter, fun held => by have := held.length; omega⟩

end UringServer
