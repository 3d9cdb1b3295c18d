import UringServer.Proofs.RingCoherence
import Mathlib.Data.Multiset.ZeroCons

/-! # Circulation of buffer ids

Receives pass ids from the published slots to the completions. Recycling writes the returned id at
an offset from the tail but publishes the slot at the tail, so what comes back is whatever that
slot held. The condition under which one such step keeps every id in circulation exactly once is
decided by the slots before it; over whole runs the two are equivalent.
-/

namespace UringServer

open Fallible Replay CircularWindow

namespace Bufring

/-- The buffer ids in the published slots, positions `head` to `tail - 1`. -/
def published (ring : Bufring) : List ℕ :=
  (List.range ring.br.available).map fun i =>
    (ring.br.slots ((ring.br.head.toNat + i) &&& ioUringBufRingMask ring.params.entries)).bid

/-- The slot that recycling publishes. -/
def publishedSlot (ring : Bufring) : ℕ :=
  ring.br.tail.toNat &&& ioUringBufRingMask ring.params.entries

/-- The slot that recycling writes. -/
def writtenSlot (ring : Bufring) (bid : ℕ) : ℕ :=
  (ring.br.tail.toNat + bid) &&& ioUringBufRingMask ring.params.entries

/-- Recycling `bid` does no harm: a published slot that is overwritten loses an id that the newly
published slot holds, and otherwise the newly published slot holds `bid`. -/
def Recyclable (ring : Bufring) (bid : ℕ) : Prop :=
  if ∃ i < ring.br.available, (ring.br.head.toNat + i) &&& ioUringBufRingMask ring.params.entries =
      ring.writtenSlot bid then
    (ring.br.slots ring.publishedSlot).bid = (ring.br.slots (ring.writtenSlot bid)).bid
  else ring.writtenSlot bid = ring.publishedSlot ∨ (ring.br.slots ring.publishedSlot).bid = bid

instance (ring : Bufring) (bid : ℕ) : Decidable (ring.Recyclable bid) := by
  unfold Bufring.Recyclable
  infer_instance

end Bufring

namespace State

/-- The ids in the published slots and in the completions not handled yet. -/
def circulating (s : State) : List ℕ := s.conn.published ++ s.heldBufs.map (·.bid)

/-- Each id of the ring circulates exactly once. -/
def RingExact (s : State) : Prop := s.circulating.Perm (List.range s.conn.params.entries)

instance (s : State) : Decidable s.RingExact :=
  inferInstanceAs (Decidable (s.circulating.Perm _))

/-- If the event gives a buffer back, giving it back does no harm. -/
def RecycleOk (s : State) (event : Event) : Prop :=
  ∀ buf, s.recycled? event = some buf → s.conn.Recyclable buf.bid

instance (s : State) (event : Event) : Decidable (s.RecycleOk event) :=
  inferInstanceAs (Decidable (∀ buf, s.recycled? event = some buf → s.conn.Recyclable buf.bid))

/-- No buffer is withdrawn from circulation. -/
theorem RingExact.circulates {s : State} (exactly : s.RingExact) {bid : ℕ}
    (bound : bid < s.conn.params.entries) : bid ∈ s.circulating :=
  exactly.mem_iff.mpr (List.mem_range.mpr bound)

/-- No two unhandled completions refer to one buffer. -/
theorem RingExact.held_nodup {s : State} (exactly : s.RingExact) :
    (s.heldBufs.map (·.bid)).Nodup :=
  (exactly.nodup_iff.mpr List.nodup_range).of_append_right

end State

section Recycle

variable {params : BufringInitParams} {ring : Bufring} {held : List IoUringBuf} {k : ℕ}

/-- The buffer id in each slot. -/
def Bufring.bids (ring : Bufring) : ℕ → ℕ := fun slot => (ring.br.slots slot).bid

theorem Bufring.published_eq_window (ring : Bufring) (power : ring.params.entries = 2 ^ k) :
    ring.published = window ring.bids ring.params.entries ring.br.head.toNat ring.br.available := by
  apply List.map_congr_left
  intro i _
  rw [mask_eq_mod power]
  rfl

/-- The position after the last published one is the tail. -/
theorem Bufring.publishedSlot_eq (power : ring.params.entries = 2 ^ k)
    (divides : ring.params.entries ∣ 2 ^ 16) :
    (ring.br.head.toNat + ring.br.available) % ring.params.entries = ring.publishedSlot := by
  have wraps : (ring.br.head.toNat + ring.br.available) % 2 ^ 16 = ring.br.tail.toNat := by
    have := ring.br.head.isLt
    have := ring.br.tail.isLt
    rw [IoUringBufRing.available, BitVec.toNat_sub]
    omega
  rw [publishedSlot, mask_eq_mod power, ← wraps, Nat.mod_mod_of_dvd _ divides]

/-- Recycling changes the buffer of one slot. -/
theorem Bufring.bids_recycle (ring : Bufring) {bid : ℕ} (narrow : bid < 2 ^ 16) :
    (ring.recycle bid).bids = Function.update ring.bids (ring.writtenSlot bid) bid := by
  funext slot
  simp only [Bufring.bids, recycle, ioUringBufRingAdvance, ioUringBufRingAdd,
    IoUringBufRing.addSlot, writtenSlot, Function.update_apply]
  split
  · exact Nat.mod_eq_of_lt narrow
  · rfl

/-- Recycling seen through the window: one write at an offset, one slot more. -/
theorem Bufring.published_recycle (power : ring.params.entries = 2 ^ k) {bid : ℕ}
    (narrow : bid < 2 ^ 16) (room : ring.br.available + 1 < 2 ^ 16) :
    (ring.recycle bid).published =
      window (Function.update ring.bids (ring.writtenSlot bid) bid) ring.params.entries
        ring.br.head.toNat (ring.br.available + 1) := by
  rw [published_eq_window (ring.recycle bid) power]
  rw [bids_recycle ring narrow, recycle, ioUringBufRingAdd, IoUringBufRing.available_advance room]
  rfl

/-- Two lists that differ in one entry are permutations of each other if that entry is the same. -/
private theorem perm_of_replaced {α : Type} {before after rest : List α} {target : List α} {old new : α}
    (start : before.Perm (old :: rest)) (stop : after.Perm (new :: rest))
    (exactly : before.Perm target) : after.Perm target ↔ new = old := by
  have swap : after.Perm target ↔ (new :: rest).Perm (old :: rest) :=
    ⟨fun same => stop.symm.trans (same.trans (exactly.symm.trans start)),
      fun same => stop.trans (same.trans (start.symm.trans exactly))⟩
  rw [swap, ← Multiset.coe_eq_coe, ← Multiset.cons_coe, ← Multiset.cons_coe]
  exact Multiset.cons_inj_left _

/-- The entry `value` comes back as `new` behind the first list. -/
private theorem perm_returned_iff {α : Type} {slots rest target : List α} {value new : α}
    (exactly : (slots ++ value :: rest).Perm target) :
    (slots ++ [new] ++ rest).Perm target ↔ new = value := by
  refine perm_of_replaced List.perm_middle ?_ exactly
  rw [List.append_assoc]
  exact List.perm_middle

/-- The entry `value` comes back over another entry of the first list, and `new` is added. -/
private theorem perm_overwritten_iff {α : Type} {slots rest target : List α} {place : ℕ} {value new : α}
    (bound : place < slots.length) (exactly : (slots ++ value :: rest).Perm target) :
    (slots.set place value ++ [new] ++ rest).Perm target ↔ new = slots[place] := by
  have start : (slots ++ value :: rest).Perm (slots[place] :: (value :: slots.eraseIdx place ++ rest)) := by
    have front := (List.getElem_cons_eraseIdx_perm bound).symm.append_right (value :: rest)
    exact front.trans (List.perm_middle.cons _)
  have stop : (slots.set place value ++ [new] ++ rest).Perm
      (new :: (value :: slots.eraseIdx place ++ rest)) := by
    rw [List.append_assoc]
    exact List.perm_middle.trans (((List.set_perm_cons_eraseIdx bound value).append_right _).cons _)
  exact perm_of_replaced start stop exactly

/-- One recycling step keeps every id exactly when it is harmless. -/
private theorem recycle_exact_iff (invariant : RingInvariant params ring held)
    (power : params.entries = 2 ^ k) (divides : params.entries ∣ 2 ^ 16) {buf : IoUringBuf}
    {before after : List IoUringBuf} (split : held = before ++ buf :: after)
    (exactly : (ring.published ++ held.map (·.bid)).Perm (List.range params.entries)) :
    ((ring.recycle buf.bid).published ++ (before ++ after).map (·.bid)).Perm
      (List.range params.entries) ↔ ring.Recyclable buf.bid := by
  obtain rfl := invariant.registered
  have small := ring.params.entries_lt
  have described := (invariant.described buf (by simp [split])).bid_lt
  have count := invariant.occupied
  have places : held.length = before.length + after.length + 1 := by
    simp [split]
    omega
  have room : ring.br.available < ring.params.entries := by omega
  have next := Bufring.publishedSlot_eq power divides
  have ids : (held.map (·.bid)).Perm (buf.bid :: (before ++ after).map (·.bid)) := by
    rw [split]
    exact List.perm_middle.map _
  have here := (ids.symm.append_left ring.published).trans exactly
  rw [Bufring.published_eq_window ring power] at here
  rw [Bufring.published_recycle power (by omega) (by omega)]
  simp only [Bufring.Recyclable, mask_eq_mod power]
  split
  · next overwrites =>
    -- The write replaces the published id at `place`.
    obtain ⟨place, inside, at_⟩ := overwrites
    rw [← at_, window_publish_inside _ _ _ _ _ _ inside room, next,
      perm_overwritten_iff (by rwa [window_length]) here, getElem_window]
    rfl
  · next misses =>
    rw [window_publish_outside _ _ _ _ _ _ fun i inside same => misses ⟨i, inside, same⟩, next,
      perm_returned_iff here]
    by_cases same : ring.writtenSlot buf.bid = ring.publishedSlot
    · rw [same, Function.update_self]
      simp only [true_or]
    · rw [Function.update_of_ne (Ne.symm same)]
      simp only [same, false_or]
      rfl

/-- A receive moves the id at the head from the published ones to the held ones. -/
private theorem receive_exact (power : ring.params.entries = 2 ^ k) (divides : ring.params.entries ∣ 2 ^ 16)
    {buf : IoUringBuf} {br : IoUringBufRing}
    (taken : ring.br.take? (ioUringBufRingMask ring.params.entries) = some (buf, br)) :
    ({ ring with br := br }.published ++ (held ++ [buf]).map (·.bid)).Perm
      (ring.published ++ held.map (·.bid)) := by
  obtain ⟨filled, rfl, rfl⟩ := IoUringBufRing.take?_eq_some_iff.mp taken
  have count := IoUringBufRing.available_take filled
  have wrap : (ring.br.head + 1).toNat = (ring.br.head.toNat + 1) % 2 ^ 16 := BitVec.toNat_add ..
  have later := Bufring.published_eq_window
    { ring with br := { ring.br with head := ring.br.head + 1 } } power
  dsimp only at later
  rw [wrap, window_mod _ _ _ _ _ divides] at later
  rw [later, Bufring.published_eq_window ring power, ← count, window_succ_front, mask_eq_mod power,
    List.map_append, ← List.append_assoc]
  exact List.perm_append_comm

end Recycle

theorem Initial.ringExact {cfg : Config} {first : State} (initial : Initial cfg first) :
    first.RingExact := by
  obtain ⟨k, -, power⟩ := initial.conn
  obtain ⟨params, -, head, -, slots⟩ := bufringInit_spec power (initial.bufrings bufringsConn)
  have invariant := initial.ringInvariant
  have held : first.heldBufs = [] := by
    rw [State.heldBufs, initial.uring]
    rfl
  have full := invariant.occupied
  rw [held, List.length_nil, Nat.add_zero] at full
  have inOrder : first.conn.published = List.range first.conn.params.entries := by
    rw [Bufring.published, full, invariant.registered]
    refine (List.map_congr_left ?_).trans (List.map_id _)
    intro i member
    have inside := List.mem_range.mp member
    have zero : BitVec.toNat (0 : BitVec 16) = 0 := rfl
    rw [mask_eq_mod power, State.conn, head, zero, Nat.zero_add, Nat.mod_eq_of_lt inside,
      slots i inside]
    rfl
  rw [State.RingExact, State.circulating, held, inOrder]
  simp

/-- A step into a running state keeps the circulation exact if and only if it does no harm. -/
theorem Step.ringExact_iff {cfg : Config} {s next : State} {event : Event}
    (step : Step cfg s event next) (reachable : Reachable cfg s) (running : next.stop = none)
    (exactly : s.RingExact) : next.RingExact ↔ s.RecycleOk event := by
  obtain ⟨k, small, power⟩ := reachable.power
  have divides : (cfg.bufringParams bufringsConn).entries ∣ 2 ^ 16 := by
    rw [power]
    exact Nat.pow_dvd_pow 2 (by omega)
  have invariant := reachable.ringInvariant
  have bgid : s.conn.params.bgid = bufringsConn := invariant.registered ▸ cfg.conn_bgid
  rw [State.RingExact, State.circulating, invariant.registered] at exactly
  rcases step.ringMove reachable.requested bgid with ⟨stop, rfl⟩ | move
  · cases running
  · have entries : next.conn.params.entries = (cfg.bufringParams bufringsConn).entries := by
      rw [move.same.1, invariant.registered]
    rw [State.RingExact, State.circulating, entries, State.RecycleOk]
    generalize s.recycled? event = label at move ⊢
    generalize next.conn = ring, next.heldBufs = held at move ⊢
    cases move with
    | idle => simpa using exactly
    | receive taken =>
      rw [← invariant.registered] at power divides
      simpa using (receive_exact power divides taken).trans exactly
    | recycle split =>
      simpa using recycle_exact_iff invariant power divides split exactly

/-- In every run that does not end the process, every id circulates exactly once in all states if
and only if no buffer is given back with harm. -/
theorem ring_exact_iff_recycle_ok {cfg : Config} {first s : State} {events : List Event}
    (start : State.initial cfg = .ok first) (run : run? (step? cfg) first events = some s)
    (running : s.stop = none) :
    Throughout (step? cfg) State.RingExact first events ↔
      Along (step? cfg) State.RecycleOk first events := by
  have keeps (s : State) (event : Event) (next : State) (reachable : Reachable cfg s)
      (stepped : step? cfg s event = some next) : Reachable cfg next := reachable.step stepped
  have lived (s : State) (event : Event) (next : State) (stepped : step? cfg s event = some next)
      (_ : next.stop = none) : s.stop = none := running_of_step? stepped
  have exact_step (s : State) (event : Event) (next : State) (reachable : Reachable cfg s)
      (exactly : s.RingExact) (running : next.stop = none) (stepped : step? cfg s event = some next) :
      next.RingExact ↔ s.RecycleOk event :=
    (step_of_step? reachable.requested stepped).2.ringExact_iff reachable running exactly
  have initial := Reachable.initial start
  exact throughout_iff_along keeps lived exact_step initial (initial_spec start).ringExact run running

/-- A connection whose packets arrive in the buffers 0, 1 and 2 before the first two are handled. -/
def threePackets : List Event :=
  calmStart ++ [.complete 0 (.accepted 5 true), .iterate 0 calm, .poll 2,
    .complete 5 (.received ['a'] true), .complete 5 (.received ['b'] true),
    .complete 5 (.received ['c'] true), .iterate 0 calm, .iterate 0 calm]

/-- Buffer 0 comes back to its slot; buffer 1 is written to slot 2, which is not published, and slot 1
holds it still. -/
theorem ring_exact_iff_recycle_ok_three_packets : ∃ first s, State.initial calmConfig = .ok first ∧
    run? (step? calmConfig) first threePackets = some s ∧ s.stop = none ∧
    s.handled.filterMap (·.buf.map (·.bid)) = [0, 1] ∧
    Along (step? calmConfig) State.RecycleOk first threePackets ∧
    Throughout (step? calmConfig) State.RingExact first threePackets := by
  have passed : (State.initial calmConfig).toOption.any (fun first =>
      (run? (step? calmConfig) first threePackets).any fun s => s.stop = none ∧
        s.handled.filterMap (·.buf.map (·.bid)) = [0, 1] ∧
        Along (step? calmConfig) State.RecycleOk first threePackets) = true := by decide +kernel
  obtain ⟨first, start, holds⟩ := (Option.any_eq_true ..).mp passed
  obtain ⟨s, run, holds⟩ := (Option.any_eq_true ..).mp holds
  obtain ⟨running, recycled, harmless⟩ := of_decide_eq_true holds
  have started := toOption_eq_some_iff.mp start
  exact ⟨first, s, started, run, running, recycled, harmless,
    (ring_exact_iff_recycle_ok started run running).mpr harmless⟩

/-- A connection whose packets arrive in the buffers 0 and 1, each handled before the next. -/
def twoPackets : List Event :=
  calmStart ++ [.complete 0 (.accepted 5 true), .iterate 0 calm, .poll 2,
    .complete 5 (.received ['a'] true), .iterate 0 calm,
    .complete 5 (.received ['b'] true), .iterate 0 calm]

/-- Giving buffer 1 back writes slot 2, where buffer 2 was published, and publishes slot 1, which
still holds buffer 1: buffer 1 circulates twice and buffer 2 not at all. -/
theorem ring_exact_fails_two_packets : ∃ first s, State.initial calmConfig = .ok first ∧
    run? (step? calmConfig) first twoPackets = some s ∧ s.stop = none ∧
    s.circulating.count 1 = 2 ∧ s.circulating.count 2 = 0 ∧ ¬ s.RingExact := by
  have passed : (replay? calmConfig twoPackets).any (fun s => s.stop = none ∧
      s.circulating.count 1 = 2 ∧ s.circulating.count 2 = 0 ∧ ¬ s.RingExact) = true := by
    decide +kernel
  obtain ⟨first, s, start, run, holds⟩ := exists_of_replay? passed
  exact ⟨first, s, start, run, of_decide_eq_true holds⟩

end UringServer
