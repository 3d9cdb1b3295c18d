import UringServer.Proofs.CheckedCalls
import UringServer.Proofs.Exits

/-! # The start-up, call by call

The checked calls of the start-up are made in one order and each once, until one of them fails. A call
that stands inside the macro is then made again before the process ends, and the error number that is
printed is the one of this second attempt. It is an error number at all only if the call returns one:
what fails with `-1` is always reported as error 1.
-/

namespace UringServer

open Fallible

namespace SetupCall

/-- The calls in the order of the program. -/
def order : List SetupCall :=
  [queueInitParams, registerBuffers] ++
    (List.finRange bufringCount).flatMap (fun index => [posixMemalign index, registerBufRing index]) ++
    [socket, setsockopt, bind, listen]

private theorem order_eq : order = [queueInitParams, registerBuffers, posixMemalign 0, registerBufRing 0,
    posixMemalign 1, registerBufRing 1, socket, setsockopt, bind, listen] := rfl

/-- The call stands inside the macro. -/
def inline : SetupCall → Bool
  | queueInitParams | setsockopt | bind | listen => true
  | registerBuffers | posixMemalign _ | registerBufRing _ | socket => false

/-- The check of the call fails. -/
def Fails (setup : Setup) (call : SetupCall) : Prop := call.tested (setup.result call) < 0

instance (setup : Setup) (call : SetupCall) : Decidable (call.Fails setup) :=
  inferInstanceAs (Decidable (_ < _))

/-- The argument of `strerror` when the check of the call fails. -/
def reported (setup : Setup) (again : SetupCall → ℤ) (call : SetupCall) : ℤ :=
  if call.inline then -again call else -call.tested (setup.result call)

end SetupCall

/-- What a call returns when it fails with an error number. -/
def Convention.failure : Convention → ℤ → ℤ
  | errno, number => number
  | negatedErrno, number => -number
  | status, _ => -1
  | descriptor, _ => -1

namespace Calls

variable {α β : Type} {first : Calls α} {rest : α → Calls β} {made later : List SetupCall}

private theorem bind_ok {value : α} (returned : first.run made = (.ok value, later)) :
    (first >>= rest).run made = (rest value).run later := by
  change ExceptT.bindCont rest (first.run made).1 (first.run made).2 = _
  rw [returned]
  rfl

private theorem bind_error {errnum : ℤ} (failed : first.run made = (.error errnum, later)) :
    (first >>= rest).run made = (.error errnum, later) := by
  change ExceptT.bindCont rest (first.run made).1 (first.run made).2 = _
  rw [failed]
  rfl

end Calls

section Checks

variable {setup : Setup} {again : SetupCall → ℤ} {call : SetupCall} {made calls : List SetupCall}

private theorem makeCall_run (setup : Setup) (again : SetupCall → ℤ) (call : SetupCall)
    (made : List SetupCall) : (makeCall setup again call).run made =
      (.ok (if call ∈ made then again call else setup.result call), made ++ [call]) := rfl

private theorem assertPositiveOf_run (code : ℤ) (made : List SetupCall) :
    (assertPositiveOf code).run made = (if code < 0 then .error (-code) else .ok (), made) := by
  unfold assertPositiveOf
  split <;> rfl

/-- A call with its check. -/
def checkedCall (setup : Setup) (again : SetupCall → ℤ) (call : SetupCall) : Calls Unit :=
  if call.inline then assertPositiveCall setup again call
  else do
    let res ← makeCall setup again call
    assertPositiveOf (call.tested res)

theorem mainSetupCalls_eq :
    mainSetupCalls setup again = forM SetupCall.order (checkedCall setup again) := by
  have rings : List.finRange bufringCount = [0, 1] := rfl
  simp [mainSetupCalls, appctxInitCalls, bufpoolInitCalls, bufringInitCalls, SetupCall.order_eq, rings,
    checkedCall, SetupCall.inline, SetupCall.tested]

/-- A check makes its call once, and once more if it fails and the call stands inside the macro. -/
theorem checkedCall_run (fresh : call ∉ made) : (checkedCall setup again call).run made =
    if call.Fails setup then
      (.error (call.reported setup again), made ++ call :: if call.inline then [call] else [])
    else (.ok (), made ++ [call]) := by
  have first := makeCall_run setup again call made
  rw [if_neg fresh] at first
  have negative : call.tested (setup.result call) < 0 ↔ call.Fails setup := .rfl
  cases inline : call.inline with
  | true =>
    have same : call.tested (setup.result call) = setup.result call := by
      cases call <;> first | rfl | cases inline
    have second := makeCall_run setup again call (made ++ [call])
    rw [if_pos (by simp)] at second
    rw [same] at negative
    rw [checkedCall, if_pos inline, assertPositiveCall, Calls.bind_ok first]
    by_cases fails : call.Fails setup
    · rw [if_pos fails, if_pos (negative.mpr fails), Calls.bind_ok second, SetupCall.reported, if_pos inline,
        List.append_assoc]
      rfl
    · rw [if_neg fails, if_neg (mt negative.mp fails)]
      rfl
  | false =>
    have outside : ¬ call.inline = true := by rw [inline]; exact Bool.false_ne_true
    rw [checkedCall, if_neg outside, Calls.bind_ok first, assertPositiveOf_run]
    by_cases fails : call.Fails setup
    · rw [if_pos fails, if_pos (negative.mpr fails), SetupCall.reported, if_neg outside]
      rfl
    · rw [if_neg fails, if_neg (mt negative.mp fails)]

/-- Checks that pass make their calls in order. -/
private theorem checkedCalls_pass (fresh : (made ++ calls).Nodup)
    (passes : ∀ call ∈ calls, ¬ call.Fails setup) :
    (forM calls (checkedCall setup again)).run made = (.ok (), made ++ calls) := by
  induction calls generalizing made with
  | nil => rw [List.append_nil]; rfl
  | cons call calls ih =>
    have new : call ∉ made := fun old => (List.nodup_append.mp fresh).2.2 call old call (by simp) rfl
    have here : (checkedCall setup again call).run made = (.ok (), made ++ [call]) := by
      rw [checkedCall_run new, if_neg (passes call (List.mem_cons_self ..))]
    rw [List.append_cons] at fresh ⊢
    rw [List.forM_cons, Calls.bind_ok here]
    exact ih fresh fun other member => passes other (List.mem_cons_of_mem _ member)

/-- Behind a check that fails nothing is called. -/
private theorem checkedCalls_fail {before after : List SetupCall} (fresh : (before ++ call :: after).Nodup)
    (passes : ∀ earlier ∈ before, ¬ earlier.Fails setup) (fails : call.Fails setup) :
    (forM (before ++ call :: after) (checkedCall setup again)).run [] =
      (.error (call.reported setup again), before ++ call :: if call.inline then [call] else []) := by
  obtain ⟨distinct, -, apart⟩ := List.nodup_append.mp fresh
  have new : call ∉ before := fun old => apart call old call (List.mem_cons_self ..) rfl
  have passed : (forM before (checkedCall setup again)).run [] = (.ok (), before) :=
    checkedCalls_pass distinct passes
  have here : (checkedCall setup again call).run before =
      (.error (call.reported setup again), before ++ call :: if call.inline then [call] else []) := by
    rw [checkedCall_run new, if_pos fails]
  rw [List.forM_append, Calls.bind_ok passed, List.forM_cons, Calls.bind_error here]

/-- What the check of a call compares, and the stop when it fails. -/
def SetupCall.check (setup : Setup) (call : SetupCall) : Check :=
  ⟨call.Fails setup, .assertPositive (call.tested (setup.result call))⟩

theorem bufpoolInit_error_iff {registerBuffers : ℤ} {iovecs : ℕ → Iovec} {freebs : ℕ → BufpoolFreebuf}
    {bufSize entries : ℕ} {stop : Stop} :
    bufpoolInit registerBuffers iovecs freebs bufSize entries = .error stop ↔
      registerBuffers < 0 ∧ stop = .assertPositive registerBuffers := by
  simp only [bufpoolInit, bind_error_iff, assertPositive_error_iff, pure_ne_error, and_false, exists_false,
    or_false]

theorem bufringInit_error_iff {index : Fin bufringCount} {posixMemalign registerBufRing : ℤ}
    {br : IoUringBufRing} {bufs : ℕ → Iovec} {params : BufringInitParams} {stop : Stop} :
    bufringInit index posixMemalign registerBufRing br bufs params = .error stop ↔
      (-posixMemalign < 0 ∧ stop = .assertPositive (-posixMemalign)) ∨
      (posixMemalign ≤ 0 ∧ registerBufRing < 0 ∧ stop = .assertPositive registerBufRing) := by
  simp only [bufringInit, bind_error_iff, assertPositive_error_iff, assertPositive_ok_iff, pure_ne_error,
    and_false, exists_false, or_false, exists_const, neg_nonneg]

/-- The start-up ends with the first check that fails. -/
theorem mainSetup_checks {bufringParams : Fin bufringCount → BufringInitParams} {bufpoolSize : ℕ}
    {stop : Stop} : mainSetup setup bufringParams bufpoolSize = .error stop ↔
      firstFailed (SetupCall.order.map (SetupCall.check setup)) = some stop := by
  simp only [SetupCall.order_eq, List.map_cons, List.map_nil, SetupCall.check, firstFailed_cons_eq_some_iff,
    decide_eq_true_eq, decide_eq_false_iff_not, firstFailed_nil, reduceCtorEq, and_false, or_false]
  simp only [SetupCall.Fails, SetupCall.tested, Setup.result, not_lt, neg_nonneg]
  simp only [mainSetup, bind_error_iff, assertPositive_ok_iff, assertPositive_error_iff, pure_ne_error,
    exists_and_right, appctxInit_returns_iff, exists_const, and_false, or_false]
  simp only [appctxInit, bind_error_iff, assertPositive_ok_iff, assertPositive_error_iff, pure_ne_error,
    bufpoolInit_error_iff, bufringInit_error_iff, exists_and_right, bufpoolInit_returns_iff,
    bufringInit_returns_iff, exists_const, exists_false, and_false, or_false]
  simp only [and_or_left, or_assoc, and_assoc]

private theorem firstFailed_passes (passes : ∀ call ∈ calls, ¬ call.Fails setup) :
    firstFailed (calls.map (SetupCall.check setup)) = none := by
  induction calls with
  | nil => rfl
  | cons call calls ih =>
    have here : ¬ call.Fails setup := passes call (List.mem_cons_self ..)
    rw [List.map_cons, firstFailed, ih fun other member => passes other (List.mem_cons_of_mem _ member)]
    simp [SetupCall.check, here]

private theorem firstFailed_at {before after : List SetupCall}
    (passes : ∀ earlier ∈ before, ¬ earlier.Fails setup) (fails : call.Fails setup) :
    firstFailed ((before ++ call :: after).map (SetupCall.check setup)) =
      some (.assertPositive (call.tested (setup.result call))) := by
  rw [List.map_append, firstFailed_append, firstFailed_passes passes, Option.none_or, List.map_cons,
    firstFailed]
  simp [SetupCall.check, fails]

private theorem fails_of_failure {number : ℤ} (positive : 0 < number)
    (failed : setup.result call = call.convention.failure number) : call.Fails setup := by
  rw [SetupCall.Fails, failed]
  cases call <;> simp [SetupCall.tested, SetupCall.convention, Convention.failure, positive]

end Checks

/-- The calls that the start-up makes and how it ends. -/
structure StartsUp (setup : Setup) (again : SetupCall → ℤ)
    (bufringParams : Fin bufringCount → BufringInitParams) (bufpoolSize : ℕ) : Prop where
  /-- If all checks pass, each call is made once. -/
  succeeds : (∀ call ∈ SetupCall.order, ¬ call.Fails setup) →
    (mainSetupCalls setup again).run [] = (.ok (), SetupCall.order) ∧
    ∃ appctx, mainSetup setup bufringParams bufpoolSize = .ok appctx
  /-- The first that fails is the last one made, and made twice inside the macro. -/
  fails : ∀ before call after, SetupCall.order = before ++ call :: after →
    (∀ earlier ∈ before, ¬ earlier.Fails setup) → call.Fails setup →
    (mainSetupCalls setup again).run [] =
      (.error (call.reported setup again), before ++ call :: if call.inline then [call] else []) ∧
    mainSetup setup bufringParams bufpoolSize =
      .error (.assertPositive (call.tested (setup.result call)))
  /-- A persisting failure is reported by its number if the call returns it. -/
  reports : ∀ call number, 0 < number → setup.result call = call.convention.failure number →
    again call = setup.result call →
    call.Fails setup ∧ (call.reported setup again = number ↔
      call.convention = .errno ∨ call.convention = .negatedErrno ∨ number = 1)

/-- Whatever the calls of the start-up return, they are made in the order of the program and each once up
to the first that fails; that one ends the process, is made a second time exactly if it stands inside the
macro, and is reported by its error number exactly if it returns the number or the number is 1. -/
theorem starts_up (setup : Setup) (again : SetupCall → ℤ)
    (bufringParams : Fin bufringCount → BufringInitParams) (bufpoolSize : ℕ) :
    StartsUp setup again bufringParams bufpoolSize := by
  have distinct : SetupCall.order.Nodup := by decide
  refine ⟨fun passes => ?_, fun before call after order passes fails => ?_, ?_⟩
  · rw [mainSetupCalls_eq]
    exact ⟨checkedCalls_pass distinct passes,
      (none_iff_ok fun _ => mainSetup_checks).mp (firstFailed_passes passes)⟩
  · rw [mainSetupCalls_eq, mainSetup_checks, order]
    exact ⟨checkedCalls_fail (order ▸ distinct) passes fails, firstFailed_at passes fails⟩
  · intro call number positive failed persists
    refine ⟨fails_of_failure positive failed, ?_⟩
    rw [SetupCall.reported, persists, failed]
    cases call <;>
      simp [SetupCall.inline, SetupCall.tested, SetupCall.convention, Convention.failure, eq_comm]

/-- The port is taken: `bind` is tried twice, and the failure is reported as `EPERM`. -/
example : (mainSetupCalls { calmSetup with bind := -1 } (fun _ => -1)).run [] =
    (.error 1, SetupCall.order.dropLast ++ [.bind]) := rfl

end UringServer
