import UringServer.Proofs.RingCirculation
import UringServer.Proofs.Routing

/-! # One ring for all connections

A connection owns the buffers that were filled for it as long as its completions wait and the ring does
not offer them to the kernel again. All connections share one ring, and giving a buffer back publishes
whatever the slot at the tail holds: a buffer of another connection, for instance. Which buffers change
hands is decided by the slots before.
-/

namespace UringServer

open Fallible Replay CircularWindow

namespace Bufring

/-- The slots whose descriptors are published. -/
def publishedSlots (ring : Bufring) : List ℕ :=
  (List.range ring.br.available).map fun i =>
    (ring.br.head.toNat + i) &&& ioUringBufRingMask ring.params.entries

/-- The published ids that giving `bid` back does not overwrite. -/
def remaining (ring : Bufring) (bid : ℕ) : List ℕ :=
  (ring.publishedSlots.filter (· ≠ ring.writtenSlot bid)).map fun slot => (ring.br.slots slot).bid

/-- The ids that giving `bid` back publishes: what the slot at the tail holds by then, and `bid` where it
is written over a published descriptor. -/
def publishing (ring : Bufring) (bid : ℕ) : List ℕ :=
  if ring.writtenSlot bid ∈ ring.publishedSlots then [(ring.br.slots ring.publishedSlot).bid, bid]
  else if ring.writtenSlot bid = ring.publishedSlot then [bid]
  else [(ring.br.slots ring.publishedSlot).bid]

/-- Giving `bid` back leaves another buffer with its owner: it is not published if it was not, and not
withdrawn if it was. -/
def Spares (ring : Bufring) (bid other : ℕ) : Prop :=
  (other ∉ ring.published → other ∉ ring.publishing bid) ∧
    (other ∈ ring.published → other ∈ ring.remaining bid ∨ other ∈ ring.publishing bid)

instance (ring : Bufring) (bid other : ℕ) : Decidable (ring.Spares bid other) :=
  inferInstanceAs (Decidable (_ ∧ _))

private theorem mem_publishedSlots {ring : Bufring} {slot : ℕ} : slot ∈ ring.publishedSlots ↔
    ∃ i < ring.br.available,
      (ring.br.head.toNat + i) &&& ioUringBufRingMask ring.params.entries = slot := by
  simp only [publishedSlots, List.mem_map, List.mem_range]

private theorem published_eq_map (ring : Bufring) :
    ring.published = ring.publishedSlots.map fun slot => (ring.br.slots slot).bid := by
  rw [published, publishedSlots, List.map_map]
  rfl

end Bufring

namespace State

/-- Giving the buffer of a completion back spares the buffers filled for the other connections. -/
def SparesOthers (s : State) (c : Completion) : Prop :=
  ∀ buf, c.buf = some buf → ∀ other ∈ s.app.uring.cq, other.receivedOn? ≠ c.receivedOn? →
    ∀ held, other.buf = some held → s.conn.Spares buf.bid held.bid

instance (s : State) (c : Completion) : Decidable (s.SparesOthers c) :=
  inferInstanceAs (Decidable (∀ buf, c.buf = some buf → ∀ other ∈ s.app.uring.cq,
    other.receivedOn? ≠ c.receivedOn? → ∀ held, other.buf = some held → _))

end State

section Recycle

variable {params : BufringInitParams} {ring : Bufring} {held : List IoUringBuf} {k bid other : ℕ}

end Recycle

section Owners

variable {cfg : Config} {s : State} {c : Completion} {index : ℕ}

/-- As long as every id circulates once, two waiting completions carry different buffers. -/
theorem State.RingExact.apart (exactly : s.RingExact) (found : s.app.uring.cq[index]? = some c)
    {buf : IoUringBuf} (filled : c.buf = some buf) {other : Completion} (waits : other ∈ s.app.uring.cq)
    (different : other ≠ c) {held : IoUringBuf} (carried : other.buf = some held) :
    held.bid ≠ buf.bid := by
  obtain ⟨before, after, split, -⟩ := eraseIdx_split found
  have rest : other ∈ before ++ after := by
    rw [split, List.mem_append, List.mem_cons] at waits
    exact List.mem_append.mpr (waits.imp_right fun last => last.resolve_left different)
  have moved : (s.heldBufs.map (·.bid)).Perm
      (buf.bid :: ((before ++ after).filterMap (·.buf)).map (·.bid)) := by
    rw [State.heldBufs, split]
    refine ((List.perm_middle.filterMap _).map _).trans ?_
    rw [List.filterMap_cons_some filled, List.map_cons]
  have once := List.nodup_cons.mp (moved.nodup_iff.mp exactly.held_nodup)
  intro same
  refine once.1 ?_
  rw [← same]
  exact List.mem_map_of_mem (List.mem_filterMap.mpr ⟨other, rest, carried⟩)

/-- As long as every id circulates once, giving a buffer back without harm spares the others. -/
theorem State.RingExact.sparesOthers (exactly : s.RingExact) (found : s.app.uring.cq[index]? = some c)
    (harmless : ∀ buf, c.buf = some buf → s.conn.Recyclable buf.bid) : s.SparesOthers c := by
  intro buf filled other member elsewhere held carried
  have unpublished : held.bid ∉ s.conn.published := by
    have nodup : s.circulating.Nodup := exactly.nodup_iff.mpr List.nodup_range
    have waits : held.bid ∈ s.heldBufs.map (·.bid) :=
      List.mem_map_of_mem (List.mem_filterMap.mpr ⟨other, member, carried⟩)
    exact fun published => List.disjoint_of_nodup_append nodup published waits
  have apart : held.bid ≠ buf.bid :=
    exactly.apart found filled member (fun same => elsewhere (congrArg _ same)) carried
  refine ⟨fun _ => ?_, fun published => absurd published unpublished⟩
  have recyclable := harmless buf filled
  simp only [Bufring.Recyclable, ← Bufring.mem_publishedSlots] at recyclable
  unfold Bufring.publishing
  split
  · next inside =>
    rw [if_pos inside] at recyclable
    have published : (s.conn.br.slots (s.conn.writtenSlot buf.bid)).bid ∈ s.conn.published := by
      rw [Bufring.published_eq_map]
      exact List.mem_map_of_mem inside
    rw [List.mem_pair, recyclable, not_or]
    exact ⟨fun same => unpublished (same ▸ published), apart⟩
  · next outside =>
    rw [if_neg outside] at recyclable
    split
    · exact fun same => apart (List.mem_singleton.mp same)
    · next misses =>
      rw [recyclable.resolve_left misses]
      exact fun same => apart (List.mem_singleton.mp same)

end Owners

end UringServer
