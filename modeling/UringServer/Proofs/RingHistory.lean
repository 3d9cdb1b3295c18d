import UringServer.Proofs.RingCirculation
import Mathlib.Data.List.Enum

/-! # The ring as a function of its history

The head counts the messages received and the tail the messages handled, both modulo `2 ^ 16`, which the
size of the ring divides. So what the slots hold does not depend on when things happened: it is what the
handled messages wrote one after another, each at the offset of its own id, and the next message
is received into the slot of its number.
-/

namespace UringServer

open Fallible Replay CircularWindow

/-- The buffers in the slots of a ring of `entries` after the buffers `recycled` were given back one
after another: number `n` is written at the offset of its id from the slot of `n`. -/
def slotsAfter (entries : ℕ) (recycled : List ℕ) : ℕ → ℕ :=
  recycled.zipIdx.foldl
    (fun slots (bid, n) => Function.update slots ((n + bid) % entries) bid) id

theorem slotsAfter_concat (entries : ℕ) (recycled : List ℕ) (bid : ℕ) :
    slotsAfter entries (recycled ++ [bid]) =
      Function.update (slotsAfter entries recycled) ((recycled.length + bid) % entries) bid := by
  rw [slotsAfter, List.zipIdx_append, List.foldl_append]
  simp [slotsAfter]

namespace State

/-- The buffers of the messages handled so far. -/
def recycledBids (s : State) : List ℕ := (s.handled.filterMap (·.buf)).map (·.bid)

/-- The buffers of the messages received so far. -/
def receivedBids (s : State) : List ℕ := s.recycledBids ++ s.heldBufs.map (·.bid)

end State

/-- Each handled message that carries a buffer gives it back. -/
theorem Step.recycledBids {cfg : Config} {s next : State} {event : Event}
    (step : Step cfg s event next) : (∃ stop, next = { s with stop := some stop }) ∨
      next.recycledBids = s.recycledBids ++ (s.recycled? event).toList.map (·.bid) := by
  cases step with
  | stops _ stop => exact .inl ⟨stop, rfl⟩
  | mainAccept => exact .inr (List.append_nil _).symm
  | mainLog => exact .inr (List.append_nil _).symm
  | mainSubmit => exact .inr (List.append_nil _).symm
  | poll => exact .inr (List.append_nil _).symm
  | complete _ posted =>
    obtain ⟨-, -, -, handled, -⟩ := posted.genuine
    right
    rw [State.recycledBids, handled]
    exact (List.append_nil _).symm
  | @iterate index answers c _ found =>
    right
    have label : s.recycled? (.iterate index answers) = c.buf := by simp [State.recycled?, found]
    rw [label, State.recycledBids, List.filterMap_append, List.map_append]
    cases filled : c.buf <;> simp [filled, State.recycledBids]

/-- The ring, told from the buffers handled so far and those still waiting. -/
structure Told (ring : Bufring) (held : List IoUringBuf) (recycled : List ℕ) : Prop where
  head : ring.br.head.toNat = (recycled.length + held.length) % 2 ^ 16
  tail : ring.br.tail.toNat = (ring.params.entries + recycled.length) % 2 ^ 16
  slots : ∀ slot < ring.params.entries, ring.bids slot = slotsAfter ring.params.entries recycled slot

section Told

variable {params : BufringInitParams} {ring next : Bufring} {held rest : List IoUringBuf}
  {label : Option IoUringBuf} {recycled : List ℕ} {k : ℕ}

/-- A 16-bit position counts on. -/
private theorem position_succ {position : BitVec 16} {count : ℕ} (here : position.toNat = count % 2 ^ 16) :
    (position + 1).toNat = (count + 1) % 2 ^ 16 := by
  have wrap : (position + 1).toNat = (position.toNat + 1) % 2 ^ 16 := BitVec.toNat_add ..
  rw [wrap, here, Nat.mod_add_mod]

theorem RingMove.told (move : RingMove ring held label next rest) (told : Told ring held recycled)
    (invariant : RingInvariant params ring held) (power : ring.params.entries = 2 ^ k)
    (divides : ring.params.entries ∣ 2 ^ 16) :
    Told next rest (recycled ++ label.toList.map (·.bid)) := by
  cases move with
  | idle => simpa using told
  | @receive buf br taken =>
    obtain ⟨-, -, rfl⟩ := IoUringBufRing.take?_eq_some_iff.mp taken
    rw [Option.toList_none, List.map_nil, List.append_nil]
    refine ⟨?_, told.tail, told.slots⟩
    rw [List.length_append, List.length_singleton, ← Nat.add_assoc]
    exact position_succ told.head
  | @recycle buf before after split =>
    have bound := (invariant.described buf (by simp [split])).bid_lt
    have narrow := bound.trans ring.params.entries_lt
    have written : ring.writtenSlot buf.bid = (recycled.length + buf.bid) % ring.params.entries := by
      rw [Bufring.writtenSlot, mask_eq_mod power, Nat.add_mod, told.tail, Nat.mod_mod_of_dvd _ divides,
        ← Nat.add_mod, Nat.add_assoc, Nat.add_mod_left]
    rw [Option.toList_some, List.map_singleton]
    refine ⟨?_, ?_, ?_⟩
    · have waiting : held.length = (before ++ after).length + 1 := by
        rw [split, List.length_append, List.length_append, List.length_cons, Nat.add_assoc]
      have head : (ring.recycle buf.bid).br.head = ring.br.head := rfl
      have given : (recycled ++ [buf.bid]).length = recycled.length + 1 := by simp
      rw [head, told.head, waiting, given, Nat.add_assoc, Nat.add_comm 1]
    · rw [List.length_append, List.length_singleton, ← Nat.add_assoc]
      exact position_succ told.tail
    · intro slot inside
      rw [Bufring.bids_recycle ring narrow, written]
      change _ = slotsAfter ring.params.entries (recycled ++ [buf.bid]) slot
      rw [slotsAfter_concat, Function.update_apply, Function.update_apply, told.slots slot inside]

/-- The next message is received into the slot of its number. -/
theorem Told.received (told : Told ring held recycled) (power : ring.params.entries = 2 ^ k)
    (divides : ring.params.entries ∣ 2 ^ 16) {buf : IoUringBuf} {br : IoUringBufRing}
    (taken : ring.br.take? (ioUringBufRingMask ring.params.entries) = some (buf, br)) :
    buf.bid = slotsAfter ring.params.entries recycled
      ((recycled.length + held.length) % ring.params.entries) := by
  obtain ⟨-, rfl, -⟩ := IoUringBufRing.take?_eq_some_iff.mp taken
  have positive : 0 < ring.params.entries := by rw [power]; exact Nat.two_pow_pos k
  rw [mask_eq_mod power, told.head, Nat.mod_mod_of_dvd _ divides]
  exact told.slots _ (Nat.mod_lt _ positive)

end Told

theorem Initial.heldBufs {cfg : Config} {first : State} (initial : Initial cfg first) :
    first.heldBufs = [] := by
  rw [State.heldBufs, initial.uring]
  rfl

theorem Initial.recycledBids {cfg : Config} {first : State} (initial : Initial cfg first) :
    first.recycledBids = [] := by
  rw [State.recycledBids, initial.handled]
  rfl

theorem Initial.told {cfg : Config} {first : State} (initial : Initial cfg first) :
    Told first.conn first.heldBufs first.recycledBids := by
  obtain ⟨k, -, power⟩ := initial.conn
  obtain ⟨params, -, head, tail, slots⟩ := bufringInit_spec power (initial.bufrings bufringsConn)
  change first.conn.params = _ at params
  change first.conn.br.head = _ at head
  change first.conn.br.tail = _ at tail
  rw [initial.heldBufs, initial.recycledBids]
  refine ⟨by rw [head]; rfl, ?_, ?_⟩
  · rw [tail, params]
    exact BitVec.toNat_ofNat ..
  · intro slot inside
    rw [params] at inside
    have filled : first.conn.br.slots slot = _ := slots slot inside
    rw [Bufring.bids, filled]
    rfl

theorem Reachable.divides {cfg : Config} {s : State} (reachable : Reachable cfg s) :
    (cfg.bufringParams bufringsConn).entries ∣ 2 ^ 16 := by
  obtain ⟨k, small, power⟩ := reachable.power
  rw [power]
  exact Nat.pow_dvd_pow 2 (by omega)

theorem Reachable.told {cfg : Config} {s : State} (reachable : Reachable cfg s) :
    Told s.conn s.heldBufs s.recycledBids := by
  refine reachable.invariant (fun first initial => initial.told) ?_
  intro s event next reachable told step
  obtain ⟨k, -, power⟩ := reachable.power
  have divides := reachable.divides
  have invariant := reachable.ringInvariant
  have bgid : s.conn.params.bgid = bufringsConn := invariant.registered ▸ cfg.conn_bgid
  rw [← invariant.registered] at power divides
  rcases step.ringMove reachable.requested bgid with ⟨stop, rfl⟩ | move
  · exact told
  · rcases step.recycledBids with ⟨stop, rfl⟩ | recycled
    · exact told
    · rw [recycled]
      exact move.told told invariant power divides

/-- In every reachable state head, tail and slots follow from which buffers were handled and how many
messages wait, and so does the buffer of the next message; nothing depends on when things happened. -/
theorem ring_told_by_history {cfg : Config} {s : State} (reachable : Reachable cfg s) :
    Told s.conn s.heldBufs s.recycledBids ∧
      ∀ buf br, s.conn.br.take? (ioUringBufRingMask s.conn.params.entries) = some (buf, br) →
        buf.bid = slotsAfter s.conn.params.entries s.recycledBids
          (s.receivedBids.length % s.conn.params.entries) := by
  obtain ⟨k, -, power⟩ := reachable.power
  have divides := reachable.divides
  have told := reachable.told
  rw [← reachable.ringInvariant.registered] at power divides
  refine ⟨told, fun buf br taken => ?_⟩
  rw [told.received power divides taken, State.receivedBids, List.length_append, List.length_map]

/-- Three messages are received and the second is handled first: buffer 1 is written to slot 1, and
slot 0 is published with buffer 0 in it, whose message still waits. -/
theorem ring_told_by_history_second : ∃ s, Reachable calmConfig s ∧ s.recycledBids = [1] ∧
    s.heldBufs.map (·.bid) = [0, 2] ∧ Told s.conn s.heldBufs s.recycledBids := by
  let events := calmStart ++ [.complete 0 (.accepted 5 true), .iterate 0 calm, .poll 2,
    .complete 5 (.received ['a'] true), .complete 5 (.received ['b'] true),
    .complete 5 (.received ['c'] true), .iterate 1 calm]
  have passed : (replay? calmConfig events).any (fun s => s.recycledBids = [1] ∧
      s.heldBufs.map (·.bid) = [0, 2]) = true := by decide +kernel
  obtain ⟨first, s, start, run, holds⟩ := exists_of_replay? passed
  obtain ⟨handled, waiting⟩ := of_decide_eq_true holds
  have reachable : Reachable calmConfig s := ⟨first, events, start, run⟩
  exact ⟨s, reachable, handled, waiting, (ring_told_by_history reachable).1⟩

end UringServer
