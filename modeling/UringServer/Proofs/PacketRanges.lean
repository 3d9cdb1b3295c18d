import UringServer.Proofs.RingCoherence
import Mathlib.Tactic.Linarith

/-! # Payload ranges in the log

The kernel writes a message to the address of the descriptor it took; the handler reads it through
the table of buffers and the id in the completion. Coherence makes these one address, so what is
printed about a packet starts behind the header of that packet and stays inside its buffer.
-/

namespace UringServer

open Fallible Replay

/-- The range that a line about a packet prints. -/
def LogArgs.payload? : LogArgs → Option (Ptr × ℤ)
  | .packetFrom _ _ _ len buf => some (buf, len)
  | _ => none

/-- The payload in the buffer that the kernel filled for a completion. -/
def Completion.payload? (c : Completion) : Option (Ptr × ℤ) :=
  c.buf.map fun buf => (buf.addr.add recvmsgOutSize, c.cqe.res - recvmsgOutSize)

/-- The ranges printed so far are the payloads of the handled completions, in order. -/
structure PayloadsLogged (s : State) : Prop where
  logged : (s.app.log.map (·.args)).filterMap LogArgs.payload? =
    s.handled.filterMap Completion.payload?
  described : ∀ c ∈ s.handled, ∀ buf, c.buf = some buf → s.conn.Describes buf

private theorem Handled.payloads {self branch : Appctx} {c : Completion} {answers : Answers}
    (step : Handled self c answers branch) (genuine : c.Genuine)
    (described : ∀ buf, c.buf = some buf → (self.bufrings bufringsConn).Describes buf) :
    (self.logArgs c answers).filterMap LogArgs.payload? = [c].filterMap Completion.payload? := by
  have unfilled (other : ∀ fd group, c.sqe.request ≠ .recvmsgMultishot fd group) :
      c.payload? = none := by
    rw [Completion.payload?, genuine.buf_eq_none other, Option.map_none]
  cases step with
  | write request => simp [Appctx.logArgs, request, unfilled (by simp [request])]
  | accept request positive ring log =>
    simp [Appctx.logArgs, request, LogArgs.payload?, unfilled (by simp [request])]
  | @recvmsg fd group buf logged second request filled log ring =>
    have addr := (described buf filled).addr
    simp [Appctx.logArgs, request, Appctx.packetArgs, LogArgs.payload?, Completion.payload?, filled,
      genuine.bid filled, addr]
  | send request => simp [Appctx.logArgs, request, unfilled (by simp [request])]

/-- A descriptor stays one of the ring, whatever the step. -/
theorem Step.describes {cfg : Config} {s next : State} {event : Event} (reachable : Reachable cfg s)
    (step : Step cfg s event next) {buf : IoUringBuf} (described : s.conn.Describes buf) :
    next.conn.Describes buf := by
  have bgid : s.conn.params.bgid = bufringsConn :=
    reachable.ringInvariant.registered ▸ cfg.conn_bgid
  rcases step.ringMove reachable.requested bgid with ⟨stop, rfl⟩ | move
  · exact described
  · obtain ⟨params, bufs⟩ := move.same
    exact ⟨params ▸ described.bid_lt, bufs ▸ described.addr, bufs ▸ described.len⟩

private theorem Step.payloadsLogged {cfg : Config} {s next : State} {event : Event}
    (reachable : Reachable cfg s) (payloads : PayloadsLogged s) (step : Step cfg s event next) :
    PayloadsLogged next := by
  have moved {buf : IoUringBuf} (described : s.conn.Describes buf) : next.conn.Describes buf :=
    step.describes reachable described
  have old (c : Completion) (member : c ∈ s.handled) (buf : IoUringBuf) (filled : c.buf = some buf) :
      next.conn.Describes buf := moved (payloads.described c member buf filled)
  cases step with
  | stops _ stop => exact ⟨payloads.logged, old⟩
  | mainAccept ring => exact ⟨payloads.logged, old⟩
  | mainLog log =>
    refine ⟨?_, old⟩
    rw [logEvent_log log, List.filterMap_append, payloads.logged]
    exact List.append_nil _
  | mainSubmit => exact ⟨payloads.logged, old⟩
  | poll => exact ⟨payloads.logged, old⟩
  | complete found posted =>
    rw [← posted.handled] at old
    exact ⟨by rw [posted.log, posted.handled, payloads.logged], old⟩
  | @iterate index answers c branch found handled =>
    have genuine := (reachable.requested.posted c (mem_posted_of_cq found)).2
    have here (buf : IoUringBuf) (filled : c.buf = some buf) : s.conn.Describes buf := by
      apply reachable.ringInvariant.described
      exact List.mem_filterMap.mpr ⟨c, List.mem_of_getElem? found, filled⟩
    refine ⟨?_, ?_⟩
    · change (branch.log.map (·.args)).filterMap _ = (s.handled ++ [c]).filterMap _
      rw [handled.log, List.filterMap_append, List.filterMap_append, payloads.logged,
        handled.payloads genuine here]
    · intro other member buf filled
      rcases List.mem_append.mp member with before | new
      · exact old other before buf filled
      · obtain rfl := List.mem_singleton.mp new
        exact moved (here buf filled)

theorem Reachable.payloadsLogged {cfg : Config} {s : State} (reachable : Reachable cfg s) :
    PayloadsLogged s := by
  refine reachable.invariant ?_ fun s event next here payloads step =>
    step.payloadsLogged here payloads
  intro first initial
  refine ⟨?_, ?_⟩
  · rw [initial.log, initial.handled]
    rfl
  · simp [initial.handled]

/-- A payload behind its header lies in the slice of the buffer it was received into. -/
private theorem payload_inside {cfg : Config} {s : State} (reachable : Reachable cfg s) {c : Completion}
    (member : c ∈ s.handled) {buf : IoUringBuf} (filled : c.buf = some buf) :
    buf.addr.block = .bufring bufringsConn ∧
      buf.bid * (cfg.bufringParams bufringsConn).entrySize ≤ buf.addr.offset + recvmsgOutSize ∧
      ((recvmsgOutSize : ℕ) : ℤ) ≤ c.cqe.res ∧
      (buf.addr.offset : ℤ) + c.cqe.res ≤
        (buf.bid + 1) * (cfg.bufringParams bufringsConn).entrySize := by
  have described := reachable.payloadsLogged.described c member buf filled
  have invariant := reachable.ringInvariant
  have carved := invariant.carved buf.bid described.bid_lt
  obtain ⟨-, header, fits⟩ :=
    (reachable.requested.posted c (List.mem_append_right _ member)).2.filled buf filled
  rw [described.len, carved, invariant.registered] at fits
  rw [described.addr, carved, invariant.registered]
  dsimp only at fits ⊢
  refine ⟨rfl, Nat.le_add_right _ _, header, ?_⟩
  push_cast
  linarith

/-- What relates the slots of the connection ring, the unhandled completions and the log. -/
structure BufringCoherent (cfg : Config) (s : State) : Prop where
  slots : ∀ i < (cfg.bufringParams bufringsConn).entries, s.conn.Describes (s.conn.br.slots i)
  occupancy : s.conn.br.available + s.heldBufs.length = (cfg.bufringParams bufringsConn).entries
  payloads : (s.app.log.map (·.args)).filterMap LogArgs.payload? =
    s.handled.filterMap Completion.payload?
  inside : ∀ c ∈ s.handled, ∀ buf, c.buf = some buf → ∀ start len, c.payload? = some (start, len) →
    start.block = .bufring bufringsConn ∧
      buf.bid * (cfg.bufringParams bufringsConn).entrySize ≤ start.offset ∧ 0 ≤ len ∧
      (start.offset : ℤ) + len ≤ (buf.bid + 1) * (cfg.bufringParams bufringsConn).entrySize

/-- In every reachable state each slot of the connection ring holds a descriptor of the carved
table, the published slots and the unhandled buffers make up the ring, and the packets in the log
are the payloads that the kernel wrote, each inside the slice of its buffer. -/
theorem bufring_coherent {cfg : Config} {s : State} (reachable : Reachable cfg s) :
    BufringCoherent cfg s := by
  have invariant := reachable.ringInvariant
  refine ⟨invariant.coherent, invariant.occupied, reachable.payloadsLogged.logged, ?_⟩
  intro c member buf filled start len payload
  obtain ⟨block, low, header, high⟩ := payload_inside reachable member filled
  simp only [Completion.payload?, filled, Option.map_some, Option.some.injEq,
    Prod.mk.injEq] at payload
  obtain ⟨rfl, rfl⟩ := payload
  refine ⟨block, low, by omega, ?_⟩
  simp only [Ptr.add]
  push_cast
  linarith

/-- A connection is accepted and its first packet handled. -/
theorem bufring_coherent_first_packet : ∃ s, Reachable calmConfig s ∧
    s.handled.filterMap Completion.payload? = [(⟨.bufring 0, 16⟩, 1)] ∧
    BufringCoherent calmConfig s := by
  let events := calmStart ++ [.complete 0 (.accepted 5 true), .iterate 0 calm, .poll 2,
    .complete 5 (.received ['a'] true), .iterate 0 calm]
  let test (s : State) : Bool := s.handled.filterMap Completion.payload? = [(⟨.bufring 0, 16⟩, 1)]
  have passed : (replay? calmConfig events).any test = true := by decide +kernel
  obtain ⟨first, s, start, run, holds⟩ := exists_of_replay? passed
  have reachable : Reachable calmConfig s := ⟨first, events, start, run⟩
  exact ⟨s, reachable, of_decide_eq_true holds, bufring_coherent reachable⟩

end UringServer
