import UringServer.Model.Startup
import UringServer.Proofs.RingInit
import UringServer.Proofs.Steps

/-! # The calls checked with `ASSERT_POSITIVE`

Three conventions meet in one macro that tests a sign: positive error numbers, negated ones, and `-1`.
Each place where a call is checked is a `CheckedCall` here, with circumstances in which the program
goes on when all its calls succeed. Putting another result in the place of one call shows what that
check does with it.
-/

namespace UringServer

open Fallible

/-- How the result of a call tells whether it succeeded. -/
inductive Convention where
  /-- Zero, or a positive error number. -/
  | errno
  /-- Zero or a count, or a negated error number. -/
  | negatedErrno
  /-- Zero, or `-1`. -/
  | status
  /-- A descriptor, or `-1`. -/
  | descriptor

namespace Convention

def MayReturn : Convention → ℤ → Prop
  | errno, result => 0 ≤ result
  | negatedErrno, _ => True
  | status, result => result = 0 ∨ result = -1
  | descriptor, result => -1 ≤ result

def Succeeded : Convention → ℤ → Prop
  | errno, result => result = 0
  | negatedErrno, result => 0 ≤ result
  | status, result => result = 0
  | descriptor, result => result ≠ -1

end Convention

namespace SetupCall

def convention : SetupCall → Convention
  | posixMemalign _ => .errno
  | socket => .descriptor
  | setsockopt | bind | listen => .status
  | queueInitParams | registerBuffers | registerBufRing _ => .negatedErrno

/-- The argument of the macro, for a result of the call. -/
def tested : SetupCall → ℤ → ℤ
  | posixMemalign _, result => -result
  | _, result => result

end SetupCall

/-- The results of a start-up with another one for a call. -/
def Setup.withResult (setup : Setup) : SetupCall → ℤ → Setup
  | .queueInitParams, result => { setup with queueInitParams := result }
  | .registerBuffers, result => { setup with registerBuffers := result }
  | .posixMemalign index, result =>
      { setup with posixMemalign := Function.update setup.posixMemalign index result }
  | .registerBufRing index, result =>
      { setup with registerBufRing := Function.update setup.registerBufRing index result }
  | .socket, result => { setup with socketfd := result }
  | .setsockopt, result => { setup with setsockopt := result }
  | .bind, result => { setup with bind := result }
  | .listen, result => { setup with listen := result }

private theorem Setup.result_withResult (setup : Setup) (call : SetupCall) (result : ℤ) :
    (setup.withResult call result).result = Function.update setup.result call result := by
  funext other
  cases call <;> cases other <;>
    simp [Setup.withResult, Setup.result, Function.update_apply]

/-- A start-up in which every call succeeds. -/
structure Startup where
  setup : Setup
  bufringParams : Fin bufringCount → BufringInitParams
  bufpoolSize : ℕ
  returns : ∃ appctx, mainSetup setup bufringParams bufpoolSize = .ok appctx

/-- `main` up to the call of `listen`, with other results. -/
def Startup.run (start : Startup) (setup : Setup) : Except Stop Appctx :=
  mainSetup setup start.bufringParams start.bufpoolSize

/-- An iteration of the loop in which every call succeeds. -/
structure Iteration where
  appctx : Appctx
  index : ℕ
  cqe : Cqe
  answers : Answers
  returns : ∃ next, runEventLoopIteration appctx index cqe answers = .ok next

/-- The iteration with other results. -/
def Iteration.run (iteration : Iteration) (answers : Answers) : Except Stop Appctx :=
  runEventLoopIteration iteration.appctx iteration.index iteration.cqe answers

/-- The iteration accepts a connection. -/
def Iteration.Accepts (iteration : Iteration) : Prop :=
  Opcode.ofCode? (userdataDecode iteration.cqe.userData).op = some .accept

/-- The results that the program checks with `ASSERT_POSITIVE`. -/
inductive CheckedCall where
  | setup (start : Startup) (call : SetupCall)
  | mainSubmit (appctx : Appctx) (answers : Answers)
  | waitCqe (iteration : Iteration)
  | getpeername (iteration : Iteration) (accepts : iteration.Accepts)
  | loopSubmit (iteration : Iteration)

namespace CheckedCall

def convention : CheckedCall → Convention
  | setup _ call => call.convention
  | getpeername .. => .status
  | mainSubmit .. | waitCqe _ | loopSubmit _ => .negatedErrno

/-- The program around the call when the call returns `result`. A failing `getpeername` leaves in the
address what was there. -/
def run : CheckedCall → ℤ → Except Stop Appctx
  | setup start call, result => start.run (start.setup.withResult call result)
  | mainSubmit appctx answers, result =>
      UringServer.mainSubmit appctx { answers with submit := result }
  | waitCqe iteration, result => iteration.run { iteration.answers with waitCqe := result }
  | getpeername iteration _, result => iteration.run { iteration.answers with
      getpeername fd := (result, (iteration.answers.getpeername fd).2) }
  | loopSubmit iteration, result => iteration.run { iteration.answers with submit := result }

/-- Execution goes on past the check. -/
def Continues (call : CheckedCall) (result : ℤ) : Prop := ∃ next, call.run result = .ok next

/-- The check of `getpeername`, whose failure has the sign of another convention. -/
def IsGetpeername : CheckedCall → Prop
  | getpeername .. => True
  | _ => False

end CheckedCall

/-- The checks of the start-up pass. -/
def Setup.Passes (setup : Setup) : Prop := ∀ call : SetupCall, 0 ≤ call.tested (setup.result call)

theorem appctxInit_returns_iff {setup : Setup} {bufringParams : Fin bufringCount → BufringInitParams}
    {bufpoolSize : ℕ} : (∃ appctx, appctxInit setup bufringParams bufpoolSize = .ok appctx) ↔
      0 ≤ setup.queueInitParams ∧ 0 ≤ setup.registerBuffers ∧
      (setup.posixMemalign 0 ≤ 0 ∧ 0 ≤ setup.registerBufRing 0) ∧
      (setup.posixMemalign 1 ≤ 0 ∧ 0 ≤ setup.registerBufRing 1) := by
  simp only [appctxInit, bind_ok_iff, assertPositive_ok_iff, pure_ok_iff, exists_const, exists_and_left]
  constructor
  · rintro ⟨queue, _, pool, poolMade, conn, connMade, spare, spareMade, -⟩
    exact ⟨queue, bufpoolInit_returns_iff.mp ⟨pool, poolMade⟩, bufringInit_returns_iff.mp ⟨conn, connMade⟩,
      bufringInit_returns_iff.mp ⟨spare, spareMade⟩⟩
  · rintro ⟨queue, registered, connReady, spareReady⟩
    obtain ⟨pool, poolMade⟩ := bufpoolInit_returns_iff.mpr registered
    obtain ⟨conn, connMade⟩ := bufringInit_returns_iff.mpr connReady
    obtain ⟨spare, spareMade⟩ := bufringInit_returns_iff.mpr spareReady
    exact ⟨queue, _, pool, poolMade, conn, connMade, spare, spareMade, rfl⟩

/-- `main` gets past `listen` when all these checks pass. -/
theorem mainSetup_returns_iff {setup : Setup} {bufringParams : Fin bufringCount → BufringInitParams}
    {bufpoolSize : ℕ} :
    (∃ appctx, mainSetup setup bufringParams bufpoolSize = .ok appctx) ↔ setup.Passes := by
  simp only [mainSetup, bind_ok_iff, assertPositive_ok_iff, pure_ok_iff, exists_const]
  constructor
  · rintro ⟨_, appctx, init, socketfd, option, bound, listening, -⟩ call
    obtain ⟨queue, registered, conn, spare⟩ := appctxInit_returns_iff.mp ⟨appctx, init⟩
    have aligned : ∀ index, setup.posixMemalign index ≤ 0 := Fin.forall_fin_two.mpr ⟨conn.1, spare.1⟩
    have rings : ∀ index, 0 ≤ setup.registerBufRing index := Fin.forall_fin_two.mpr ⟨conn.2, spare.2⟩
    cases call with
    | queueInitParams => exact queue
    | registerBuffers => exact registered
    | posixMemalign index => exact neg_nonneg.mpr (aligned index)
    | registerBufRing index => exact rings index
    | socket => exact socketfd
    | setsockopt => exact option
    | bind => exact bound
    | listen => exact listening
  · intro passes
    have aligned (index : Fin bufringCount) : setup.posixMemalign index ≤ 0 :=
      neg_nonneg.mp (passes (.posixMemalign index))
    obtain ⟨appctx, init⟩ := appctxInit_returns_iff.mpr ⟨passes .queueInitParams, passes .registerBuffers,
      ⟨aligned 0, passes (.registerBufRing 0)⟩, ⟨aligned 1, passes (.registerBufRing 1)⟩⟩
    exact ⟨_, appctx, init, passes .socket, passes .setsockopt, passes .bind, passes .listen, rfl⟩

theorem Startup.passes (start : Startup) : start.setup.Passes :=
  mainSetup_returns_iff.mp start.returns

/-- Besides the result that is put in its place, every check of the start-up passes. -/
private theorem Startup.run_returns_iff (start : Startup) (call : SetupCall) (result : ℤ) :
    (∃ next, start.run (start.setup.withResult call result) = .ok next) ↔ 0 ≤ call.tested result := by
  refine mainSetup_returns_iff.trans ?_
  rw [Setup.Passes, Setup.result_withResult]
  refine (Function.forall_update_iff _ fun (call : SetupCall) result => 0 ≤ call.tested result).trans ?_
  exact and_iff_left fun other _ => start.passes other

/-- An iteration returns when its two own checks pass and the branch it takes returns. -/
private theorem Iteration.run_returns_iff {iteration : Iteration} {answers : Answers} :
    (∃ next, iteration.run answers = .ok next) ↔ 0 ≤ answers.waitCqe ∧ 0 ≤ answers.submit ∧
      ∃ branch, dispatch iteration.appctx iteration.cqe answers = .ok branch := by
  simp only [Iteration.run, runEventLoopIteration_ok_iff, exists_and_left]
  refine and_congr_right fun _ => and_congr_right fun _ => ?_
  rw [exists_comm]
  simp only [exists_and_left, exists_eq, and_true]

private theorem Iteration.dispatch_accept {iteration : Iteration} (accepts : iteration.Accepts)
    (answers : Answers) : dispatch iteration.appctx iteration.cqe answers =
      appctxHandleAccept iteration.appctx iteration.cqe answers := by
  rw [Iteration.Accepts] at accepts
  simp only [dispatch, accepts]

namespace CheckedCall

/-- The argument of `ASSERT_POSITIVE` after the call. -/
def tested : CheckedCall → ℤ → ℤ
  | setup _ call, result => call.tested result
  | getpeername .., result => -result
  | _, result => result

/-- Nothing else decides whether execution goes on. -/
theorem continues_iff_tested (call : CheckedCall) (result : ℤ) :
    call.Continues result ↔ 0 ≤ call.tested result := by
  cases call with
  | setup start call => exact start.run_returns_iff call result
  | mainSubmit appctx answers =>
    simp only [Continues, run, UringServer.mainSubmit, bind_ok_iff, assertPositive_ok_iff, pure_ok_iff,
      exists_const, exists_and_left, exists_eq', and_true, tested]
  | waitCqe iteration =>
    obtain ⟨-, submitted, dispatched⟩ := Iteration.run_returns_iff.mp iteration.returns
    refine Iteration.run_returns_iff.trans ⟨fun passes => passes.1, fun positive => ?_⟩
    exact ⟨positive, submitted, dispatched⟩
  | getpeername iteration accepts =>
    obtain ⟨waited, submitted, next, dispatched⟩ := Iteration.run_returns_iff.mp iteration.returns
    rw [Iteration.dispatch_accept accepts] at dispatched
    obtain ⟨positive, -, first, ring, logged⟩ := appctxHandleAccept_ok_iff.mp dispatched
    refine Iteration.run_returns_iff.trans ⟨?_, fun passed => ⟨waited, submitted, next, ?_⟩⟩
    · rintro ⟨-, -, next, dispatched⟩
      rw [Iteration.dispatch_accept accepts] at dispatched
      obtain ⟨-, passed, -⟩ := appctxHandleAccept_ok_iff.mp dispatched
      exact neg_nonneg.mpr passed
    · rw [Iteration.dispatch_accept accepts]
      exact appctxHandleAccept_ok_iff.mpr ⟨positive, neg_nonneg.mp passed, first, ring, logged⟩
  | loopSubmit iteration =>
    obtain ⟨waited, -, dispatched⟩ := Iteration.run_returns_iff.mp iteration.returns
    refine Iteration.run_returns_iff.trans ⟨fun passes => passes.2.1, fun positive => ?_⟩
    exact ⟨waited, positive, dispatched⟩

/-- The sign that is tested says whether the call succeeded, the flip for `posix_memalign`
included. -/
private theorem tested_iff_succeeded {call : CheckedCall} {result : ℤ} (other : ¬ call.IsGetpeername)
    (may : call.convention.MayReturn result) :
    0 ≤ call.tested result ↔ call.convention.Succeeded result := by
  cases call with
  | getpeername _ _ => exact absurd trivial other
  | mainSubmit _ _ | waitCqe _ | loopSubmit _ => exact Iff.rfl
  | setup _ call =>
    cases call with
    | queueInitParams | registerBuffers | registerBufRing _ => exact Iff.rfl
    | posixMemalign _ | socket | setsockopt | bind | listen =>
      simp only [convention, SetupCall.convention, Convention.MayReturn, Convention.Succeeded, tested,
        SetupCall.tested] at may ⊢
      omega

/-- A check goes on exactly on success, whatever the convention of its call, unless the call is a
`getpeername` that failed. -/
theorem continues_iff_succeeded_iff {call : CheckedCall} {result : ℤ}
    (may : call.convention.MayReturn result) :
    (call.Continues result ↔ call.convention.Succeeded result) ↔
      ¬ (call.IsGetpeername ∧ result = -1) := by
  rw [continues_iff_tested]
  by_cases flipped : call.IsGetpeername
  · cases call with
    | getpeername iteration accepts =>
      rcases may with rfl | rfl
      · exact iff_of_true (iff_of_true le_rfl rfl) fun failed => absurd failed.2 (by decide)
      -- The failure is negated to `1` and passes.
      · refine iff_of_false (fun same => ?_) fun holds => holds ⟨trivial, rfl⟩
        have passes : 0 ≤ (getpeername iteration accepts).tested (-1) := by simp [tested]
        have zero : (-1 : ℤ) = 0 := same.mp passes
        exact absurd zero (by decide)
    | _ => exact flipped.elim
  · exact iff_of_true (tested_iff_succeeded flipped may) fun failed => flipped failed.1

/-- When `posix_memalign` has no memory, the process ends before it registers the ring. -/
theorem continues_iff_succeeded_iff_memalign : ∃ start : Startup, start.setup = calmSetup ∧
    ¬ (setup start (.posixMemalign bufringsConn)).Continues 12 := by
  have passes : calmSetup.Passes := fun call => by cases call <;> decide +revert
  let start : Startup := ⟨calmSetup, mainBufringParams, 16, mainSetup_returns_iff.mpr passes⟩
  have positive : (0 : ℤ) ≤ 12 := by decide
  have failed : ¬ (12 : ℤ) = 0 := by decide
  have stops := @continues_iff_succeeded_iff (setup start (.posixMemalign bufringsConn)) 12 positive
  exact ⟨start, rfl, fun continues => failed ((stops.mpr fun flipped => flipped.1).mp continues)⟩

/-- An environment in which the stack holds the byte 170 where `getpeername` puts the address. -/
def stale (result : ℤ) : Answers :=
  let byte : Fin 256 := ⟨170, by decide⟩
  { calm with getpeername := fun _ => (result, ⟨(byte, byte, byte, byte), (byte, byte)⟩) }

/-- `getpeername` fails for a new connection, and the handler logs what the stack held. -/
theorem continues_unfilled_address : ∃ s iteration accepts next,
    ServerRun calmConfig (fun _ => calm) [.poll 5, .complete 0 (.accepted 5 true)] s ∧
    iteration.appctx = s.app ∧ iteration.answers = stale 0 ∧
    (getpeername iteration accepts).convention.MayReturn (-1) ∧
    ¬ (getpeername iteration accepts).convention.Succeeded (-1) ∧
    (getpeername iteration accepts).run (-1) = .ok next ∧
    (next.log.getLast?.map (·.args)) =
      some (.newConnection "170.170.170.170:43690".toList) := by
  have passed : (replay? calmConfig (mainEvents (fun _ => calm) ++
      [.poll 5, .complete 0 (.accepted 5 true)])).any (fun s => (s.app.uring.cq[0]?).any fun c =>
      (runEventLoopIteration s.app 0 c.cqe (stale 0)).toOption.any fun _ =>
      (runEventLoopIteration s.app 0 c.cqe (stale (-1))).toOption.any fun next =>
        Opcode.ofCode? (userdataDecode c.cqe.userData).op = some .accept ∧
        (next.log.getLast?.map (·.args)) =
          some (.newConnection "170.170.170.170:43690".toList)) = true := by
    decide +kernel
  obtain ⟨s, run, holds⟩ := exists_serverRun rfl passed
  obtain ⟨c, -, holds⟩ := (Option.any_eq_true ..).mp holds
  obtain ⟨well, returned, holds⟩ := (Option.any_eq_true ..).mp holds
  obtain ⟨next, continued, holds⟩ := (Option.any_eq_true ..).mp holds
  obtain ⟨accepts, logged⟩ := of_decide_eq_true holds
  let iteration : Iteration := ⟨s.app, 0, c.cqe, stale 0, well, toOption_eq_some_iff.mp returned⟩
  have failed : ¬ (-1 : ℤ) = 0 := by decide
  exact ⟨s, iteration, accepts, next, run, rfl, rfl, .inr rfl, failed,
    toOption_eq_some_iff.mp continued, logged⟩

end CheckedCall

/-- A server that runs has passed the checks of its start-up: its rings and its pool are
registered. -/
theorem Reachable.passes {cfg : Config} {s : State} (reachable : Reachable cfg s) :
    cfg.setup.Passes := by
  obtain ⟨first, -, start, -⟩ := reachable
  obtain ⟨app, setup, -⟩ := bind_ok_iff.mp start
  exact mainSetup_returns_iff.mp ⟨app, setup⟩

end UringServer
