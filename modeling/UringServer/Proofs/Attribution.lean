import UringServer.Lib.Separators
import UringServer.Proofs.Routing

/-! # Peer addresses in the log

The text of an address determines the address. There is one global text; the accept handler
replaces it and the recvmsg handler prints it. So the log names the peer accepted last, and it is
right about a packet exactly when that is the peer the packet came from.
-/

namespace UringServer

open Fallible Replay Separators

theorem decimal_inj {m n : ℕ} (same : decimal m = decimal n) : m = n := by
  have parsed := congrArg (fun digits => Nat.ofDigitChars 10 digits 0) same
  simpa only [decimal, Nat.ofDigitChars_ten_toDigits] using parsed

theorem not_mem_decimal {n : ℕ} {c : Char} (punctuation : c.isDigit = false) : c ∉ decimal n := by
  intro member
  have digit := Nat.isDigit_of_mem_toDigits (by decide) (by decide) member
  rw [punctuation] at digit
  cases digit

private theorem addrText_ne_nil (addr : SockaddrIn) : addrText addr ≠ [] := by
  simp [addrText]

/-- Different peers have different texts. -/
theorem addrText_inj {a b : SockaddrIn} (same : addrText a = addrText b) : a = b := by
  obtain ⟨⟨a1, a2, a3, a4⟩, ⟨ahigh, alow⟩⟩ := a
  obtain ⟨⟨b1, b2, b3, b4⟩, ⟨bhigh, blow⟩⟩ := b
  simp only [addrText, dottedDecimal, List.append_assoc, List.cons_append] at same
  have dot (n : ℕ) : '.' ∉ decimal n := not_mem_decimal rfl
  have colon (n : ℕ) : ':' ∉ decimal n := not_mem_decimal rfl
  obtain ⟨first, same⟩ := append_separator_inj (dot _) (dot _) same
  obtain ⟨second, same⟩ := append_separator_inj (dot _) (dot _) same
  obtain ⟨third, same⟩ := append_separator_inj (dot _) (dot _) same
  obtain ⟨fourth, port⟩ := append_separator_inj (colon _) (colon _) same
  have ports := decimal_inj port
  simp only [SockaddrIn.port] at ports
  have high : ahigh = bhigh := Fin.ext (by omega)
  have low : alow = blow := Fin.ext (by omega)
  rw [Fin.ext (decimal_inj first), Fin.ext (decimal_inj second), Fin.ext (decimal_inj third),
    Fin.ext (decimal_inj fourth), high, low]

/-- The address that a line names. -/
def LogArgs.addr? : LogArgs → Option (List Char)
  | .text _ => none
  | .newConnection addr => some addr
  | .packetFrom addr _ _ _ _ => some addr

namespace Completion

/-- The connection that an accept completion delivers. -/
def acceptedFd? (c : Completion) : Option ℤ :=
  match c.sqe.request with
  | .multishotAccept _ => some c.cqe.res
  | _ => none

/-- The connection that the line about a completion is about. -/
def aboutFd? (c : Completion) : Option ℤ :=
  match c.sqe.request with
  | .multishotAccept _ => some c.cqe.res
  | .recvmsgMultishot fd _ => some fd
  | _ => none

end Completion

/-- The log names, line by line, the peer of the connection that was accepted or received on. -/
def Attributed (peer : ℤ → SockaddrIn) (s : State) : Prop :=
  (s.app.log.map (·.args)).filterMap LogArgs.addr? =
    s.handled.filterMap fun c => c.aboutFd?.map fun fd => addrText (peer fd)

/-- The connection whose accept was handled last. -/
def lastAccepted (handled : List Completion) : Option ℤ :=
  (handled.filterMap Completion.acceptedFd?).getLast?

/-- Every packet handled came from the peer whose connection was accepted last before. -/
def FromLastAccepted (peer : ℤ → SockaddrIn) (handled : List Completion) : Prop :=
  ∀ i c fd, handled[i]? = some c → c.receivedOn? = some fd →
    (lastAccepted (handled.take i)).map peer = some (peer fd)

/-- During the loop `getpeername` succeeds and knows the peers. -/
def Event.Peers (peer : ℤ → SockaddrIn) : Event → Prop
  | .iterate _ answers => ∀ fd, answers.getpeername fd = (0, peer fd)
  | _ => True

section Handled

variable {peer : ℤ → SockaddrIn} {handled : List Completion} {c : Completion}

private theorem fromLastAccepted_append : FromLastAccepted peer (handled ++ [c]) ↔
    FromLastAccepted peer handled ∧
      ∀ fd, c.receivedOn? = some fd → (lastAccepted handled).map peer = some (peer fd) := by
  constructor
  · intro all
    refine ⟨?_, ?_⟩
    · intro i other fd found received
      obtain ⟨bound, -⟩ := List.getElem?_eq_some_iff.mp found
      have here := all i other fd (by rw [List.getElem?_append_left bound, found]) received
      rwa [List.take_append_of_le_length (by omega)] at here
    · intro fd received
      have here := all handled.length c fd (by simp) received
      rwa [List.take_left] at here
  · rintro ⟨before, last⟩ i other fd found received
    rcases lt_trichotomy i handled.length with earlier | rfl | later
    · rw [List.getElem?_append_left earlier] at found
      rw [List.take_append_of_le_length (by omega)]
      exact before i other fd found received
    · rw [List.take_left]
      simp only [List.getElem?_concat_length, Option.some.injEq] at found
      exact last fd (found ▸ received)
    · rw [List.getElem?_eq_none (by simp only [List.length_append, List.length_singleton]; omega)] at found
      cases found

private theorem lastAccepted_append :
    lastAccepted (handled ++ [c]) = (c.acceptedFd? <|> lastAccepted handled) := by
  rw [lastAccepted, List.filterMap_append]
  cases accepted : c.acceptedFd? with
  | none => simp [accepted, lastAccepted]
  | some fd => simp [accepted]

/-- Only the accept handler writes `fmt_addr`. -/
theorem Handled.fmtAddr {self branch : Appctx} {answers : Answers}
    (step : Handled self c answers branch) : branch.fmtAddr =
      (c.acceptedFd?.map fun fd => addrText (answers.getpeername fd).2).getD self.fmtAddr := by
  cases step with
  | write request => simp [Completion.acceptedFd?, request]
  | accept request positive ring log =>
    simp [Completion.acceptedFd?, request, logEvent_fmtAddr log, Appctx.armed, Appctx.poll]
  | recvmsg request filled log ring =>
    have same := logEvent_fmtAddr log
    simp [Completion.acceptedFd?, request, Appctx.recycled, Appctx.poll, same]
  | send request => simp [Completion.acceptedFd?, request]

/-- What the log says of one completion, right or wrong. -/
private theorem logArgs_addr (self : Appctx) (answers : Answers)
    (peers : ∀ fd, answers.getpeername fd = (0, peer fd)) :
    (self.logArgs c answers).filterMap LogArgs.addr? =
      match c.sqe.request with
      | .multishotAccept _ => [addrText (peer c.cqe.res)]
      | .recvmsgMultishot _ _ => [self.fmtAddr]
      | _ => [] := by
  unfold Appctx.logArgs
  cases c.sqe.request <;> simp [LogArgs.addr?, Appctx.packetArgs, peers]

end Handled

/-- The global text is the one of the connection accepted last, and the log is right exactly when
the packets came from there. -/
structure AttributionExact (peer : ℤ → SockaddrIn) (s : State) : Prop where
  current : s.app.fmtAddr = ((lastAccepted s.handled).map fun fd => addrText (peer fd)).getD []
  exactly : Attributed peer s ↔ FromLastAccepted peer s.handled

theorem AttributionExact.same {peer : ℤ → SockaddrIn} {s next : State}
    (attribution : AttributionExact peer s) (fmtAddr : next.app.fmtAddr = s.app.fmtAddr)
    (handled : next.handled = s.handled)
    (addrs : (next.app.log.map (·.args)).filterMap LogArgs.addr? =
      (s.app.log.map (·.args)).filterMap LogArgs.addr?) : AttributionExact peer next := by
  refine ⟨?_, ?_⟩
  · rw [fmtAddr, handled]
    exact attribution.current
  · rw [Attributed, addrs, handled]
    exact attribution.exactly

/-- The text printed for a packet is right when its peer was accepted last. -/
private theorem AttributionExact.text_iff {peer : ℤ → SockaddrIn} {s : State}
    (attribution : AttributionExact peer s) (fd : ℤ) : s.app.fmtAddr = addrText (peer fd) ↔
      (lastAccepted s.handled).map peer = some (peer fd) := by
  rw [attribution.current]
  cases lastAccepted s.handled with
  | none => simpa using (addrText_ne_nil (peer fd)).symm
  | some last =>
    simp only [Option.map_some, Option.getD_some, Option.some.injEq]
    exact ⟨addrText_inj, congrArg addrText⟩

private theorem Step.attributionExact {cfg : Config} {peer : ℤ → SockaddrIn} {s next : State} {event : Event}
    (step : Step cfg s event next) (peers : event.Peers peer) (attribution : AttributionExact peer s) :
    AttributionExact peer next := by
  cases step with
  | stops _ stop => exact attribution.same rfl rfl rfl
  | mainAccept ring => exact attribution.same rfl rfl rfl
  | mainLog log =>
    refine attribution.same (logEvent_fmtAddr log) rfl ?_
    rw [logEvent_log log, List.filterMap_append]
    exact List.append_nil _
  | mainSubmit => exact attribution.same rfl rfl rfl
  | poll => exact attribution.same rfl rfl rfl
  | complete found posted => exact attribution.same posted.fmtAddr posted.handled (by rw [posted.log])
  | @iterate index answers c branch found handled =>
    have addrs := congrArg (List.filterMap LogArgs.addr?) handled.log
    rw [List.filterMap_append, logArgs_addr s.app answers peers] at addrs
    have fmtAddr : (branch.finish index).fmtAddr = _ := handled.fmtAddr
    refine ⟨?_, ?_⟩
    · rw [fmtAddr, lastAccepted_append]
      cases c.acceptedFd? with
      | none => exact attribution.current
      | some fd => simp [peers fd]
    · change (branch.log.map (·.args)).filterMap LogArgs.addr? = _ ↔ _
      rw [addrs, fromLastAccepted_append, List.filterMap_append]
      have exactly := attribution.exactly
      have text := attribution.text_iff
      unfold Attributed at exactly
      generalize (s.app.log.map (·.args)).filterMap LogArgs.addr? = logged at exactly ⊢
      generalize s.handled.filterMap (fun c => c.aboutFd?.map fun fd => addrText (peer fd)) = expected
        at exactly ⊢
      simp only [List.filterMap_cons, List.filterMap_nil, Completion.aboutFd?, Completion.receivedOn?]
      -- One line more on both sides, except for sends and writes.
      cases c.sqe.request with
      | multishotAccept fd => simp [exactly]
      | recvmsgMultishot fd group =>
        have both : logged ++ [s.app.fmtAddr] = expected ++ [addrText (peer fd)] ↔
            logged = expected ∧ s.app.fmtAddr = addrText (peer fd) := by
          constructor
          · intro same
            obtain ⟨lines, last⟩ := List.append_inj' same rfl
            exact ⟨lines, List.singleton_inj.mp last⟩
          · rintro ⟨lines, last⟩
            rw [lines, last]
        simp [both, exactly, text]
      | sendZc fd data => simp [exactly]
      | writeFixed fd buf nbytes offset bid => simp [exactly]

/-- When `getpeername` knows the peers, the log of a run attributes every line to the right peer if
and only if every packet it handled came from the peer accepted last before. -/
theorem attributed_iff_from_last_accepted {cfg : Config} {peer : ℤ → SockaddrIn} {first s : State}
    {events : List Event} (start : State.initial cfg = .ok first)
    (run : run? (step? cfg) first events = some s) (peers : ∀ event ∈ events, event.Peers peer) :
    Attributed peer s ↔ FromLastAccepted peer s.handled := by
  have initial := initial_spec start
  have exactly : AttributionExact peer first := by
    refine ⟨?_, ?_⟩
    · rw [initial.fmtAddr, initial.handled]
      rfl
    · simp [Attributed, FromLastAccepted, initial.log, initial.handled]
  have preserved : AttributionExact peer s := (Reachable.initial start).preserves run peers exactly
    fun s event next _ known holds step => step.attributionExact known holds
  exact preserved.exactly

/-- The peers that the calm environment reports. -/
def calmPeer (fd : ℤ) : SockaddrIn := (calm.getpeername fd).2

private theorem twoConnections_peers (firstFd secondFd : ℤ) (index : ℕ) :
    ∀ event ∈ twoConnections firstFd secondFd index, event.Peers calmPeer := by
  simp [twoConnections, calmStart, mainEvents, Event.Peers, calmPeer, calm]

/-- The message comes from the connection accepted last. -/
theorem attributed_iff_from_last_accepted_second : ∃ first s, State.initial calmConfig = .ok first ∧
    run? (step? calmConfig) first (twoConnections 5 6 7) = some s ∧
    s.handled.filterMap Completion.aboutFd? = [5, 6, 6] ∧
    (Attributed calmPeer s ↔ FromLastAccepted calmPeer s.handled) := by
  have passed : (replay? calmConfig (twoConnections 5 6 7)).any
      (fun s => s.handled.filterMap Completion.aboutFd? = [5, 6, 6]) = true := by decide +kernel
  obtain ⟨first, s, start, run, holds⟩ := exists_of_replay? passed
  exact ⟨first, s, start, run, of_decide_eq_true holds,
    attributed_iff_from_last_accepted start run (twoConnections_peers _ _ _)⟩

/-- The message comes from the first connection and is logged as coming from the second. -/
theorem not_attributed_first : ∃ first s, State.initial calmConfig = .ok first ∧
    run? (step? calmConfig) first (twoConnections 5 6 5) = some s ∧
    (∀ event ∈ twoConnections 5 6 5, event.Peers calmPeer) ∧
    s.handled.filterMap Completion.aboutFd? = [5, 6, 5] ∧
    (s.app.log.map (·.args)).filterMap LogArgs.addr? =
      ["10.0.0.5:8080".toList, "10.0.0.6:8080".toList, "10.0.0.6:8080".toList] ∧
    ¬ Attributed calmPeer s := by
  have passed : (replay? calmConfig (twoConnections 5 6 5)).any (fun s =>
      s.handled.filterMap Completion.aboutFd? = [5, 6, 5] ∧
      (s.app.log.map (·.args)).filterMap LogArgs.addr? =
        ["10.0.0.5:8080".toList, "10.0.0.6:8080".toList, "10.0.0.6:8080".toList] ∧
      (s.app.log.map (·.args)).filterMap LogArgs.addr? ≠
        s.handled.filterMap fun c => c.aboutFd?.map fun fd => addrText (calmPeer fd)) = true := by
    decide +kernel
  obtain ⟨first, s, start, run, holds⟩ := exists_of_replay? passed
  obtain ⟨about, logged, wrong⟩ := of_decide_eq_true holds
  exact ⟨first, s, start, run, twoConnections_peers _ _ _, about, logged, wrong⟩

end UringServer
