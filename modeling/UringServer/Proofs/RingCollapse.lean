import UringServer.Proofs.RingHistory

/-! # The ring of a quiet server

A server that handles each message before the next one arrives gives the ring its buffers in the
order of the slots. Recycling buffer 1 writes the slot behind the one it publishes, which is where
the next message is received: after the first message, buffer 1 is all the kernel ever uses, and
each message takes one more buffer out of circulation until only that one is left.
-/

namespace UringServer

open Fallible Replay CircularWindow

/-- The buffer of message `n`, the messages counted from 0. -/
def quietBid (n : ℕ) : ℕ := min n 1

/-- The buffer in `slot` after `n` messages. -/
def quietSlot (entries n slot : ℕ) : ℕ :=
  if slot = 0 then if n < entries then 0 else 1
  else if slot ≤ n then 1 else slot

section Quiet

variable {entries n slot : ℕ}

private theorem quietSlot_zero (several : 1 < entries) : quietSlot entries 0 slot = slot := by
  unfold quietSlot
  split_ifs <;> omega

/-- The slot at the head holds the buffer of the next message. -/
private theorem quietSlot_head (several : 1 < entries) :
    quietSlot entries n (n % entries) = quietBid n := by
  have bound := Nat.mod_lt n (Nat.zero_lt_of_lt several)
  have below := Nat.mod_le n entries
  unfold quietSlot quietBid
  by_cases early : n < entries
  · rw [Nat.mod_eq_of_lt early]
    split_ifs <;> omega
  · split_ifs <;> omega

/-- Recycling the buffer of message `n` writes the slot that the later messages find. -/
private theorem quietSlot_succ (several : 1 < entries) (inside : slot < entries) :
    quietSlot entries (n + 1) slot =
      if slot = (n + quietBid n) % entries then quietBid n else quietSlot entries n slot := by
  rcases Nat.eq_zero_or_pos n with rfl | later
  · rw [quietSlot_zero several]
    have first : quietBid 0 = 0 := rfl
    rw [first, Nat.add_zero, Nat.zero_mod]
    unfold quietSlot
    split_ifs <;> omega
  · have one : quietBid n = 1 := Nat.min_eq_right later
    rw [one]
    unfold quietSlot
    rcases Nat.lt_trichotomy (n + 1) entries with early | last | late
    · rw [Nat.mod_eq_of_lt early]
      split_ifs <;> omega
    · rw [last, Nat.mod_self]
      split_ifs <;> omega
    · split_ifs <;> omega

/-- Buffers leave the slots one by one, except for buffer 1. -/
private theorem exists_quietSlot_iff {bid : ℕ} (several : 1 < entries) (bound : bid < entries) :
    (∃ slot < entries, quietSlot entries n slot = bid) ↔
      bid = 1 ∨ n < bid ∨ bid = 0 ∧ n < entries := by
  constructor
  · rintro ⟨slot, inside, rfl⟩
    unfold quietSlot
    split_ifs <;> omega
  · rintro (rfl | fresh | ⟨rfl, early⟩)
    · exact ⟨1, several, by unfold quietSlot; split_ifs <;> omega⟩
    · exact ⟨bid, bound, by unfold quietSlot; split_ifs <;> omega⟩
    · exact ⟨0, bound, by unfold quietSlot; split_ifs <;> omega⟩

/-- What messages that are handled one by one leave in the slots. -/
private theorem slotsAfter_quiet (several : 1 < entries) (inside : slot < entries) :
    slotsAfter entries ((List.range n).map quietBid) slot = quietSlot entries n slot := by
  induction n generalizing slot with
  | zero => exact (quietSlot_zero several).symm
  | succ n ih =>
    have count : ((List.range n).map quietBid).length = n := by simp
    rw [List.range_succ, List.map_append, List.map_singleton, slotsAfter_concat, count,
      quietSlot_succ several inside, Function.update_apply, ih inside]

end Quiet

/-- The messages were handled in the order of their numbers, and at most the next one waits. -/
structure Quiet (held : List IoUringBuf) (recycled : List ℕ) : Prop where
  alone : held.length ≤ 1
  named : ∀ buf ∈ held, buf.bid = quietBid recycled.length
  messages : recycled = (List.range recycled.length).map quietBid

section Quiet

variable {ring next : Bufring} {held rest : List IoUringBuf} {label : Option IoUringBuf}
  {recycled : List ℕ} {k : ℕ}

theorem Quiet.slots (quiet : Quiet held recycled) (told : Told ring held recycled)
    (several : 1 < ring.params.entries) {slot : ℕ} (inside : slot < ring.params.entries) :
    ring.bids slot = quietSlot ring.params.entries recycled.length slot := by
  rw [told.slots slot inside, ← slotsAfter_quiet several inside, ← quiet.messages]

/-- A quiet ring stays quiet as long as no second message waits. -/
theorem RingMove.quiet (move : RingMove ring held label next rest) (quiet : Quiet held recycled)
    (told : Told ring held recycled) (several : 1 < ring.params.entries)
    (power : ring.params.entries = 2 ^ k) (divides : ring.params.entries ∣ 2 ^ 16)
    (alone : rest.length ≤ 1) : Quiet rest (recycled ++ label.toList.map (·.bid)) := by
  cases move with
  | idle => simpa using quiet
  | @receive buf br taken =>
    rw [List.length_append, List.length_singleton] at alone
    obtain rfl : held = [] := List.length_eq_zero_iff.mp (by omega)
    have inside := Nat.mod_lt recycled.length (Nat.zero_lt_of_lt several)
    have served : buf.bid = quietBid recycled.length := by
      rw [told.received power divides taken, List.length_nil, Nat.add_zero, ← told.slots _ inside]
      exact (quiet.slots told several inside).trans (quietSlot_head several)
    rw [Option.toList_none, List.map_nil, List.append_nil]
    exact ⟨alone, by simpa using served, quiet.messages⟩
  | @recycle buf before after split =>
    have only := quiet.alone
    rw [split, List.length_append, List.length_cons] at only
    obtain rfl : before = [] := List.length_eq_zero_iff.mp (by omega)
    obtain rfl : after = [] := List.length_eq_zero_iff.mp (by omega)
    have bid : buf.bid = quietBid recycled.length := quiet.named buf (by simp [split])
    refine ⟨alone, by simp, ?_⟩
    rw [Option.toList_some, List.map_singleton, bid, List.length_append, List.length_singleton,
      List.range_succ, List.map_append, ← quiet.messages]
    rfl

/-- What circulates in a quiet ring is what its slots hold. -/
theorem Quiet.circulating (quiet : Quiet held recycled) (told : Told ring held recycled)
    (several : 1 < ring.params.entries) (power : ring.params.entries = 2 ^ k)
    (divides : ring.params.entries ∣ 2 ^ 16)
    (occupied : ring.br.available + held.length = ring.params.entries) :
    (ring.published ++ held.map (·.bid)).Perm
      (window ring.bids ring.params.entries recycled.length ring.params.entries) := by
  have published : ring.published =
      window ring.bids ring.params.entries (recycled.length + held.length) ring.br.available := by
    rw [Bufring.published_eq_window ring power, told.head, window_mod _ _ _ _ _ divides]
  rw [published]
  rcases held with - | ⟨buf, - | ⟨other, rest⟩⟩
  · have full : ring.br.available = ring.params.entries := occupied
    rw [full]
    simp
  · -- the slot of the waiting message still holds its buffer
    have waits : ring.bids (recycled.length % ring.params.entries) = buf.bid := by
      rw [quiet.slots told several (Nat.mod_lt _ (Nat.zero_lt_of_lt several)), quietSlot_head several]
      exact (quiet.named buf (List.mem_singleton_self buf)).symm
    have lap : window ring.bids ring.params.entries recycled.length ring.params.entries =
        buf.bid :: window ring.bids ring.params.entries (recycled.length + 1) ring.br.available := by
      rw [← waits, ← window_succ_front]
      exact congrArg _ occupied.symm
    rw [lap]
    exact List.perm_append_singleton ..
  · exact absurd quiet.alone (by simp)

end Quiet

/-- The ring serves a state quietly. -/
def State.Quiet (s : State) : Prop := UringServer.Quiet s.heldBufs s.recycledBids

theorem Initial.quiet {cfg : Config} {first : State} (initial : Initial cfg first) : first.Quiet := by
  rw [State.Quiet, initial.heldBufs, initial.recycledBids]
  exact ⟨Nat.zero_le 1, by simp, rfl⟩

theorem Step.quiet {cfg : Config} {s next : State} {event : Event} (step : Step cfg s event next)
    (reachable : Reachable cfg s) (several : 1 < (cfg.bufringParams bufringsConn).entries)
    (alone : next.heldBufs.length ≤ 1) (quiet : s.Quiet) : next.Quiet := by
  obtain ⟨k, -, power⟩ := reachable.power
  have divides := reachable.divides
  have invariant := reachable.ringInvariant
  have bgid : s.conn.params.bgid = bufringsConn := invariant.registered ▸ cfg.conn_bgid
  rw [← invariant.registered] at several power divides
  rcases step.ringMove reachable.requested bgid with ⟨stop, rfl⟩ | move
  · exact quiet
  · rcases step.recycledBids with ⟨stop, rfl⟩ | recycled
    · exact quiet
    · rw [State.Quiet, recycled]
      exact move.quiet quiet reachable.told several power divides alone

/-- What becomes of the ring: every message after the first is received in buffer 1, each of them
takes one more buffer out of circulation, and in the end only buffer 1 is left. -/
structure Collapses (s : State) : Prop where
  received : s.receivedBids = (List.range s.receivedBids.length).map fun i => min i 1
  circulating : ∀ bid < s.conn.params.entries, bid ∈ s.circulating ↔
    bid = 1 ∨ s.recycledBids.length < bid ∨ bid = 0 ∧ s.recycledBids.length < s.conn.params.entries
  one_left : s.conn.params.entries ≤ s.recycledBids.length →
    s.circulating = List.replicate s.conn.params.entries 1

theorem State.Quiet.received {s : State} (quiet : s.Quiet) :
    s.receivedBids = (List.range s.receivedBids.length).map quietBid := by
  obtain ⟨alone, named, messages⟩ := quiet
  rw [State.receivedBids]
  generalize s.heldBufs = held at alone named
  rcases held with - | ⟨buf, - | ⟨other, rest⟩⟩
  · simpa using messages
  · rw [List.map_singleton, named buf (List.mem_singleton_self buf), List.length_append,
      List.length_singleton, List.range_succ, List.map_append, ← messages]
    rfl
  · exact absurd alone (by simp)

theorem State.Quiet.collapses {cfg : Config} {s : State} (quiet : s.Quiet)
    (reachable : Reachable cfg s) (several : 1 < (cfg.bufringParams bufringsConn).entries) :
    Collapses s := by
  obtain ⟨k, -, power⟩ := reachable.power
  have divides := reachable.divides
  have invariant := reachable.ringInvariant
  have told := reachable.told
  have occupied := invariant.occupied
  rw [← invariant.registered] at several power divides occupied
  have lap : s.circulating.Perm _ :=
    UringServer.Quiet.circulating quiet told several power divides occupied
  have members (bid : ℕ) : bid ∈ s.circulating ↔
      ∃ slot < s.conn.params.entries, quietSlot s.conn.params.entries s.recycledBids.length slot = bid := by
    rw [lap.mem_iff, mem_lap_iff]
    refine exists_congr fun slot => and_congr_right fun inside => ?_
    rw [UringServer.Quiet.slots quiet told several inside]
  refine ⟨quiet.received, fun bid bound => ?_, fun late => ?_⟩
  · rw [members, exists_quietSlot_iff several bound]
  · have length : s.circulating.length = s.conn.params.entries := by
      rw [lap.length_eq, window_length]
    refine List.eq_replicate_iff.mpr ⟨length, fun bid member => ?_⟩
    obtain ⟨slot, inside, rfl⟩ := (members bid).mp member
    unfold quietSlot
    split_ifs <;> omega

/-- A server with several buffers that never has two messages waiting loses all of them but one. -/
theorem quiet_ring_collapses {cfg : Config} {first s : State} {events : List Event}
    (start : State.initial cfg = .ok first) (run : run? (step? cfg) first events = some s)
    (several : 1 < (cfg.bufringParams bufringsConn).entries)
    (alone : Throughout (step? cfg) (fun s => s.heldBufs.length ≤ 1) first events) :
    Collapses s := by
  have keeps (s : State) (event : Event) (next : State) (kept : Reachable cfg s ∧ s.Quiet)
      (alone : next.heldBufs.length ≤ 1) (stepped : step? cfg s event = some next) :
      Reachable cfg next ∧ next.Quiet :=
    ⟨kept.1.step stepped, (step_of_step? kept.1.requested stepped).2.quiet kept.1 several alone kept.2⟩
  have initial : Reachable cfg first ∧ first.Quiet :=
    ⟨.initial start, (initial_spec start).quiet⟩
  obtain ⟨reachable, quiet⟩ := run?_preserves_throughout keeps initial run alone
  exact quiet.collapses reachable several

/-- A client sends three messages and the server answers each before the next: buffer 2 is gone. -/
theorem quiet_ring_collapses_three : ∃ s, Reachable calmConfig s ∧ s.receivedBids = [0, 1, 1] ∧
    Collapses s := by
  let events := twoPackets ++ [.complete 5 (.received ['c'] true)]
  have passed : (State.initial calmConfig).toOption.any (fun first =>
      (run? (step? calmConfig) first events).any fun s => s.receivedBids = [0, 1, 1] ∧
        Throughout (step? calmConfig) (fun s => s.heldBufs.length ≤ 1) first events) = true := by
    decide +kernel
  obtain ⟨first, start, holds⟩ := (Option.any_eq_true ..).mp passed
  obtain ⟨s, run, holds⟩ := (Option.any_eq_true ..).mp holds
  obtain ⟨buffers, alone⟩ := of_decide_eq_true holds
  have started := toOption_eq_some_iff.mp start
  exact ⟨s, ⟨first, events, started, run⟩, buffers,
    quiet_ring_collapses started run (by decide) alone⟩

end UringServer
