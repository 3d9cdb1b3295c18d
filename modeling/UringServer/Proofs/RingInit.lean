import UringServer.Lib.Fallible
import UringServer.Model.BufRing
import UringServer.Proofs.Carving

/-! # Initialising a provided-buffer ring

The loop of `bufring_init` writes each slot once, at offsets from a tail that does not move before the
loop is done. Advancing it then publishes these slots and no others, whatever number of entries the
kernel accepted.
-/

namespace UringServer

open Fallible

namespace Bufring

/-- Buffer `i` is the slice `i` of the one allocation behind the ring. -/
def Carved (ring : Bufring) (index : Fin bufringCount) : Prop :=
  ∀ i < ring.params.entries,
    ring.bufs i = ⟨⟨.bufring index, i * ring.params.entrySize⟩, ring.params.entrySize⟩

/-- The published descriptors, positions `head` to `tail - 1`. -/
def descriptors (ring : Bufring) : List IoUringBuf :=
  (List.range ring.br.available).map fun i =>
    ring.br.slots ((ring.br.head.toNat + i) &&& ioUringBufRingMask ring.params.entries)

end Bufring

/-- Positions are reduced modulo a power of two by masking. -/
theorem mask_eq_mod {entries k : ℕ} (power : entries = 2 ^ k) (position : ℕ) :
    position &&& ioUringBufRingMask entries = position % entries := by
  rw [ioUringBufRingMask, power, Nat.and_two_pow_sub_one_eq_mod]

/-- Sizes of 16 bits, one of them a power of two, have a product of less than 32 bits: at most
`2 ^ 15` entries of `2 ^ 16 - 1` bytes. -/
theorem bufringBytes_eq {params : BufringInitParams} {k : ℕ} (power : params.entries = 2 ^ k) :
    bufringBytes params = some ((params.entries * params.entrySize : ℕ) : ℤ) := by
  have entries : params.entries ≤ 2 ^ 15 := by
    have bound := params.entries_lt
    rw [power] at bound ⊢
    have exponent : k < 16 := (Nat.pow_lt_pow_iff_right (by decide)).mp bound
    exact Nat.pow_le_pow_right (by decide) (Nat.le_of_lt_succ exponent)
  have size : params.entrySize ≤ 2 ^ 16 - 1 := Nat.le_sub_one_of_lt params.entrySize_lt
  have product := Nat.mul_le_mul entries size
  rw [bufringBytes, intMul, ← Int.natCast_mul, if_pos (by omega)]

section Rounds

variable {index : Fin bufringCount} {br : IoUringBufRing} {bufs : ℕ → Iovec}
  {params : BufringInitParams} {count i k : ℕ}

private theorem bufringRounds_succ : bufringRounds index br bufs params (count + 1) =
    bufringFill ⟨.bufring index, 0⟩ params (bufringRounds index br bufs params count) count := by
  rw [bufringRounds, List.range_succ, List.foldl_append]
  rfl

/-- Nothing is published or taken during the loop. -/
private theorem bufringRounds_ends :
    (bufringRounds index br bufs params count).1.tail = 0 ∧
      (bufringRounds index br bufs params count).1.head = 0 := by
  induction count with
  | zero => exact ⟨rfl, rfl⟩
  | succ count ih =>
    rw [bufringRounds_succ]
    exact ih

/-- Round `i` writes slot `i`. -/
private theorem bufringRounds_addSlot (power : params.entries = 2 ^ k) (inside : i < params.entries) :
    (bufringRounds index br bufs params i).1.addSlot (ioUringBufRingMask params.entries) i = i := by
  rw [IoUringBufRing.addSlot, mask_eq_mod power, bufringRounds_ends.1]
  simpa using Nat.mod_eq_of_lt inside

/-- The table names the buffers carved so far. -/
private theorem bufringRounds_bufs (inside : i < count) : (bufringRounds index br bufs params count).2 i =
    (Block.bufring index).carve params.entrySize i := by
  induction count with
  | zero => cases inside
  | succ count ih =>
    rw [bufringRounds_succ]
    rcases Nat.lt_succ_iff_lt_or_eq.mp inside with earlier | rfl
    · rw [← ih earlier]
      exact Function.update_of_ne (by omega) _ _
    · simp [bufringFill, Ptr.add, Block.carve]

/-- The slots hold the descriptors of the buffers carved so far. -/
private theorem bufringRounds_slots (power : params.entries = 2 ^ k) (bound : count ≤ params.entries)
    (inside : i < count) : (bufringRounds index br bufs params count).1.slots i =
      ⟨⟨.bufring index, i * params.entrySize⟩, params.entrySize, i⟩ := by
  induction count with
  | zero => cases inside
  | succ count ih =>
    have slot := @bufringRounds_addSlot index br bufs params count k power bound
    have small := params.entries_lt
    rw [bufringRounds_succ]
    simp only [bufringFill, ioUringBufRingAdd]
    rw [slot]
    rcases Nat.lt_succ_iff_lt_or_eq.mp inside with earlier | rfl
    · rw [← ih (by omega) earlier]
      exact Function.update_of_ne (by omega) _ _
    · rw [Function.update_self, Nat.mod_eq_of_lt (by omega)]
      simp [Ptr.add]

end Rounds

theorem bufringInit_returns_iff {index : Fin bufringCount} {posixMemalign registerBufRing : ℤ}
    {br : IoUringBufRing} {bufs : ℕ → Iovec} {params : BufringInitParams} :
    (∃ ring, bufringInit index posixMemalign registerBufRing br bufs params = .ok ring) ↔
      posixMemalign ≤ 0 ∧ 0 ≤ registerBufRing := by
  simp only [bufringInit, bind_ok_iff, assertPositive_ok_iff, pure_ok_iff, exists_const, exists_and_left,
    exists_eq', and_true, Left.nonneg_neg_iff]

/-- `bufring_init` publishes descriptor `i` of its allocation in slot `i`. -/
theorem bufringInit_spec {index : Fin bufringCount} {posixMemalign registerBufRing : ℤ}
    {br : IoUringBufRing} {bufs : ℕ → Iovec} {params : BufringInitParams} {ring : Bufring} {k : ℕ}
    (power : params.entries = 2 ^ k)
    (made : bufringInit index posixMemalign registerBufRing br bufs params = .ok ring) :
    ring.params = params ∧ ring.Carved index ∧ ring.br.head = 0 ∧
      ring.br.tail = BitVec.ofNat 16 params.entries ∧
      ∀ i < params.entries, ring.br.slots i = ⟨(ring.bufs i).iovBase, (ring.bufs i).iovLen, i⟩ := by
  simp only [bufringInit, bind_ok_iff, assertPositive_ok_iff, pure_ok_iff, exists_const] at made
  obtain ⟨-, -, rfl⟩ := made
  obtain ⟨tail, head⟩ := @bufringRounds_ends index br bufs params params.entries
  refine ⟨rfl, fun i inside => bufringRounds_bufs inside, head, ?_, ?_⟩
  · rw [ioUringBufRingAdvance, tail]
    exact BitVec.zero_add _
  · intro i inside
    have named : (bufringRounds index br bufs params params.entries).2 i = _ :=
      bufringRounds_bufs inside
    have slot := @bufringRounds_slots index br bufs params _ i k power le_rfl inside
    dsimp only
    rw [named]
    exact slot

/-- What `bufring_init` leaves: a table that carves the whole allocation and a ring that publishes
exactly the entries of the table. -/
structure CarvedAndPublished (index : Fin bufringCount) (br : IoUringBufRing) (bufs : ℕ → Iovec)
    (params : BufringInitParams) (ring : Bufring) : Prop where
  /-- The `int` product in the allocation does not overflow. -/
  bytes : bufringBytes params = some ((params.entries * params.entrySize : ℕ) : ℤ)
  sized : ∀ i < params.entries, (ring.bufs i).iovLen = params.entrySize
  apart : ∀ i < params.entries, ∀ j < params.entries, i ≠ j →
    Disjoint (ring.bufs i).range (ring.bufs j).range
  whole : ⋃ i ∈ Set.Iio params.entries, (ring.bufs i).range =
    (Block.bufring index).range (params.entries * params.entrySize)
  slots : ∀ i < params.entries, ring.br.slots i = ⟨(ring.bufs i).iovBase, params.entrySize, i⟩
  /-- Every slot is written in exactly one round of the loop. -/
  once : ∀ slot < params.entries, ∃! i, i < params.entries ∧
    (bufringRounds index br bufs params i).1.addSlot (ioUringBufRingMask params.entries) i = slot
  head : ring.br.head = 0
  tail : ring.br.tail.toNat = params.entries
  /-- The kernel finds the entries of the table, in order, and nothing else. -/
  published : ring.descriptors =
    (List.range params.entries).map fun i => ⟨(ring.bufs i).iovBase, params.entrySize, i⟩

/-- `bufring_init` carves and publishes its allocation exactly, for every number of entries that the
kernel registers a ring for. -/
theorem bufringInit_carves_and_publishes {index : Fin bufringCount}
    {posixMemalign registerBufRing : ℤ} {br : IoUringBufRing} {bufs : ℕ → Iovec}
    {params : BufringInitParams} {ring : Bufring} {k : ℕ} (power : params.entries = 2 ^ k)
    (made : bufringInit index posixMemalign registerBufRing br bufs params = .ok ring) :
    CarvedAndPublished index br bufs params ring := by
  obtain ⟨same, carved, head, tail, slots⟩ := bufringInit_spec power made
  have small := params.entries_lt
  have table (i : ℕ) (inside : i < params.entries) :
      ring.bufs i = (Block.bufring index).carve params.entrySize i := by
    rw [carved i (same ▸ inside), same]
    rfl
  have filled (i : ℕ) (inside : i < params.entries) :
      ring.br.slots i = ⟨(ring.bufs i).iovBase, params.entrySize, i⟩ := by
    rw [slots i inside, table i inside]
    rfl
  have count : ring.br.tail.toNat = params.entries := by
    rw [tail, BitVec.toNat_ofNat, Nat.mod_eq_of_lt small]
  refine ⟨bufringBytes_eq power, ?_, ?_, ?_, filled, ?_, head, count, ?_⟩
  · intro i inside
    rw [table i inside]
    rfl
  · intro i first j second distinct
    rw [table i first, table j second]
    exact Block.disjoint_carve distinct
  · rw [← Block.biUnion_carve]
    exact Set.iUnion₂_congr fun i inside => by rw [table i inside]
  · intro slot inside
    refine ⟨slot, ⟨inside, bufringRounds_addSlot power inside⟩, ?_⟩
    rintro i ⟨bound, written⟩
    rw [← written, bufringRounds_addSlot power bound]
  · have available : ring.br.available = params.entries := by
      rw [IoUringBufRing.available, head]
      exact (congrArg BitVec.toNat (BitVec.sub_zero _)).trans count
    rw [Bufring.descriptors, available, same, head]
    refine List.map_congr_left fun i member => ?_
    have inside := List.mem_range.mp member
    have position : (BitVec.toNat (0 : BitVec 16) + i) &&& ioUringBufRingMask params.entries = i := by
      rw [mask_eq_mod power]
      simpa using Nat.mod_eq_of_lt inside
    rw [position, filled i inside]

/-- The largest ring: `2 ^ 15` entries of `2 ^ 16 - 1` bytes fall short of `2 ^ 31` by one byte an
entry. -/
theorem bufringInit_carves_and_publishes_largest : ∃ ring : Bufring,
    ring.params.entries * ring.params.entrySize = 2 ^ 31 - 2 ^ 15 ∧
    CarvedAndPublished (Fin.last 1) ⟨fun _ => ⟨⟨.bufpool, 0⟩, 0, 0⟩, 0, 0⟩ (fun _ => ⟨⟨.bufpool, 0⟩, 0⟩)
      ring.params ring := by
  let largest : BufringInitParams :=
    { entries := 2 ^ 15
      entrySize := 2 ^ 16 - 1
      bgid := 2 }
  have made : ∃ ring, ring.params = largest ∧ bufringInit (Fin.last 1) 0 0
      ⟨fun _ => ⟨⟨.bufpool, 0⟩, 0, 0⟩, 0, 0⟩ (fun _ => ⟨⟨.bufpool, 0⟩, 0⟩) largest = .ok ring :=
    ⟨_, rfl, rfl⟩
  obtain ⟨ring, same, made⟩ := made
  have power : largest.entries = 2 ^ 15 := rfl
  refine ⟨ring, ?_, ?_⟩
  · rw [same]
    decide
  · rw [same]
    exact bufringInit_carves_and_publishes power made

end UringServer
