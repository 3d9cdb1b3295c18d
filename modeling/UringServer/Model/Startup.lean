import UringServer.Model.EventLoop

/-! # The calls of the start-up

`ASSERT_POSITIVE` names its argument twice: in the test, and in the error number that it prints when the
test fails. A variable keeps its value, but a call is made once more. So the calls that the process makes
are those of the program text only as long as they succeed.
-/

namespace UringServer

/-- The calls of the start-up that are checked. -/
inductive SetupCall where
  | queueInitParams
  | registerBuffers
  | posixMemalign (index : Fin bufringCount)
  | registerBufRing (index : Fin bufringCount)
  | socket
  | setsockopt
  | bind
  | listen
deriving DecidableEq, Repr

/-- The result of a call. -/
def Setup.result (setup : Setup) : SetupCall → ℤ
  | .queueInitParams => setup.queueInitParams
  | .registerBuffers => setup.registerBuffers
  | .posixMemalign index => setup.posixMemalign index
  | .registerBufRing index => setup.registerBufRing index
  | .socket => setup.socketfd
  | .setsockopt => setup.setsockopt
  | .bind => setup.bind
  | .listen => setup.listen

/-- A part of the start-up, over the calls made so far. It ends with the argument of `strerror`. -/
abbrev Calls (α : Type) := ExceptT ℤ (StateM (List SetupCall)) α

section Startup

variable (setup : Setup) (again : SetupCall → ℤ)

/-- Make a call; `again` is what it returns when it was made before. -/
def makeCall (call : SetupCall) : Calls ℤ := do
  let made ← get
  set (made ++ [call])
  return if call ∈ made then again call else setup.result call

/-- `ASSERT_POSITIVE` of a variable. -/
def assertPositiveOf (code : ℤ) : Calls Unit := do
  if code < 0 then
    throw (-code)

/-- `ASSERT_POSITIVE` of a call. -/
def assertPositiveCall (call : SetupCall) : Calls Unit := do
  let code ← makeCall setup again call
  if code < 0 then
    let code ← makeCall setup again call
    throw (-code)

/-- The calls of `bufring_init`. -/
def bufringInitCalls (index : Fin bufringCount) : Calls Unit := do
  let res ← makeCall setup again (.posixMemalign index)
  assertPositiveOf (-res)
  let res ← makeCall setup again (.registerBufRing index)
  assertPositiveOf res

/-- The call of `bufpool_init`. -/
def bufpoolInitCalls : Calls Unit := do
  let res ← makeCall setup again .registerBuffers
  assertPositiveOf res

/-- The calls of `appctx_init`. -/
def appctxInitCalls : Calls Unit := do
  assertPositiveCall setup again .queueInitParams
  bufpoolInitCalls setup again
  forM (List.finRange bufringCount) (bufringInitCalls setup again)

/-- The calls of `main` up to `listen`. -/
def mainSetupCalls : Calls Unit := do
  appctxInitCalls setup again
  let socketfd ← makeCall setup again .socket
  assertPositiveOf socketfd
  assertPositiveCall setup again .setsockopt
  assertPositiveCall setup again .bind
  assertPositiveCall setup again .listen

end Startup

end UringServer
