import UringServer.Proofs.LogFile

/-! # What reaches stderr

Of the lines that were logged only those of at most 256 characters can ever be written, each at most once
and as it was stored: a line that fills the buffer lost its last character to the terminator. Besides
them, only the message of the check that ends the process reaches stderr.
-/

namespace UringServer

open Fallible Replay PositionalFile

/-- What is on stderr, oldest first: what the writes stored there, and what `ASSERT_POSITIVE` or
`ASSERT_NOT_NULL` prints before it ends the process. -/
def State.stderr (report : Stop → List Char) (s : State) : List (List Char) :=
  s.written ++ s.stop.toList.map report

/-- As long as the process runs, what is on stderr are distinct lines of the log, as they were stored, and
of these only such as fit in a buffer; the file behind it never outgrows one buffer. -/
theorem stderr_written_from_log {cfg : Config} {s : State} (reachable : Reachable cfg s)
    (running : s.stop = none) (report : Stop → List Char) :
    (s.stderr report).Subperm ((s.app.log.filter (·.InBuffer)).map LogRecord.stored) ∧
      s.file.length ≤ loggingBufsize := by
  have lines := reachable.written_stored
  refine ⟨?_, ?_⟩
  · rw [State.stderr, running]
    simpa using lines
  · rw [reachable.writtenAtZero.file]
    rcases foldl_pwrite_zero_length nul [] s.written with empty | ⟨data, member, bound⟩
    · exact empty.trans (Nat.zero_le _)
    · obtain ⟨r, logged, rfl⟩ := List.mem_map.mp (lines.subset member)
      have inside : r.InBuffer := of_decide_eq_true (List.mem_filter.mp logged).2
      exact bound.trans (r.stored_length_le inside)

/-- Of a line that is too long and one that is not, the kernel refuses the first and writes the
second. -/
theorem stderr_written_from_log_refused : ∃ s, Reachable calmConfig s ∧
    s.app.log.map (fun r => decide r.InBuffer) = [false, true] ∧
    (step? calmConfig s (.complete 0 .written)).isNone ∧ s.written.length = 1 ∧
    (s.stderr fun _ => []).Subperm ((s.app.log.filter (·.InBuffer)).map LogRecord.stored) ∧
    s.file.length ≤ loggingBufsize := by
  let events : List Event := [.mainLog .info (List.replicate 300 'a') calm,
    .mainLog .info "Server starting".toList calm, .mainSubmit calm, .poll 2, .complete 1 .written]
  have passed : (replay? calmConfig events).any (fun s =>
      s.app.log.map (fun r => decide r.InBuffer) = [false, true] ∧
      (step? calmConfig s (.complete 0 .written)).isNone ∧ s.written.length = 1 ∧ s.stop = none) =
      true := by
    decide +kernel
  obtain ⟨first, s, start, run, holds⟩ := exists_of_replay? passed
  obtain ⟨lengths, refused, once, running⟩ := of_decide_eq_true holds
  have reachable : Reachable calmConfig s := ⟨first, events, start, run⟩
  exact ⟨s, reachable, lengths, refused, once, stderr_written_from_log reachable running _⟩

end UringServer
