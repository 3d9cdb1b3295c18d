import UringServer.Proofs.Steps
import UringServer.Proofs.RingInit
import UringServer.Lib.CircularWindow
import Mathlib.Data.List.Perm.Lattice

/-! # Descriptors of the provided-buffer ring

Receives and recycling move whole descriptors between the slots of the connection ring and the
completions not handled yet. Whatever the slot that recycling writes, it writes a descriptor of the
table the program reads from, and it publishes one slot for each completion it handles. So every
slot stays coherent with that table and the ring is never over-published.
-/

namespace UringServer

open Fallible Replay CircularWindow

namespace Bufring

/-- A descriptor of one of the buffers that the program carved. -/
structure Describes (ring : Bufring) (buf : IoUringBuf) : Prop where
  bid_lt : buf.bid < ring.params.entries
  addr : buf.addr = (ring.bufs buf.bid).iovBase
  len : buf.len = (ring.bufs buf.bid).iovLen

/-- Only the table of buffers decides what a descriptor describes, not the slots. -/
@[simp] theorem describes_with_br (ring : Bufring) (br : IoUringBufRing) (buf : IoUringBuf) :
    { ring with br := br }.Describes buf ↔ ring.Describes buf :=
  ⟨fun described => ⟨described.1, described.2, described.3⟩,
    fun described => ⟨described.1, described.2, described.3⟩⟩

@[simp] theorem describes_recycle (ring : Bufring) (bid : ℕ) (buf : IoUringBuf) :
    (ring.recycle bid).Describes buf ↔ ring.Describes buf :=
  describes_with_br ring _ buf

end Bufring

namespace State

/-- The ring that connections receive into. -/
def conn (s : State) : Bufring := s.app.bufrings bufringsConn

/-- The buffers carried by completions that are not handled yet. -/
def heldBufs (s : State) : List IoUringBuf := s.app.uring.cq.filterMap (·.buf)

/-- The buffer that an event gives back, if it handles a completion that carries one. -/
def recycled? (s : State) : Event → Option IoUringBuf
  | .iterate index _ => s.app.uring.cq[index]?.bind (·.buf)
  | _ => none

end State

/-- How one step moves descriptors between the ring and the unhandled completions. The label is the
buffer given back. -/
inductive RingMove (ring : Bufring) (held : List IoUringBuf) :
    Option IoUringBuf → Bufring → List IoUringBuf → Prop
  | idle : RingMove ring held none ring held
  | receive {buf : IoUringBuf} {br : IoUringBufRing}
      (taken : ring.br.take? (ioUringBufRingMask ring.params.entries) = some (buf, br)) :
      RingMove ring held none { ring with br := br } (held ++ [buf])
  | recycle {buf : IoUringBuf} {before after : List IoUringBuf}
      (split : held = before ++ buf :: after) :
      RingMove ring held (some buf) (ring.recycle buf.bid) (before ++ after)

theorem RingMove.same {ring next : Bufring} {held rest : List IoUringBuf} {label : Option IoUringBuf}
    (move : RingMove ring held label next rest) :
    next.params = ring.params ∧ next.bufs = ring.bufs := by
  cases move with
  | idle => exact ⟨rfl, rfl⟩
  | receive taken => exact ⟨rfl, rfl⟩
  | recycle split => exact ⟨rfl, rfl⟩

/-- Completions leave the queue with their buffers. -/
private theorem filterMap_eraseIdx {α β : Type} (f : α → Option β) {entries : List α} {index : ℕ} {entry : α}
    (found : entries[index]? = some entry) :
    match f entry with
    | none => (entries.eraseIdx index).filterMap f = entries.filterMap f
    | some value => ∃ before after, entries.filterMap f = before ++ value :: after ∧
        (entries.eraseIdx index).filterMap f = before ++ after := by
  obtain ⟨before, after, rfl, erased⟩ := eraseIdx_split found
  rw [erased]
  cases value : f entry with
  | none => simp [value]
  | some carried => exact ⟨before.filterMap f, after.filterMap f, by simp [value], by simp⟩

/-- Handling a completion without a buffer leaves the rings alone; with one, it recycles. -/
theorem Handled.conn {self branch : Appctx} {c : Completion} {answers : Answers}
    (step : Handled self c answers branch) (genuine : c.Genuine) :
    match c.buf with
    | none => branch.bufrings = self.bufrings
    | some buf => branch.bufrings bufringsConn = (self.bufrings bufringsConn).recycle buf.bid := by
  cases step with
  | write request => rw [genuine.buf_eq_none (by simp [request])]
  | accept request positive ring log =>
    rw [genuine.buf_eq_none (by simp [request])]
    have same := logEvent_bufrings log
    exact same
  | @recvmsg fd group buf logged second request filled log ring =>
    rw [filled]
    have same := logEvent_bufrings log
    change Function.update logged.bufrings bufringsConn
      ((logged.bufrings bufringsConn).recycle buf.bid) bufringsConn = _
    rw [Function.update_self, same]
  | send request => rw [genuine.buf_eq_none (by simp [request])]

/-- The groups registered by `main` are the indices; the first ring answers for its own. -/
theorem ringOfGroup_conn {s : State} (bgid : s.conn.params.bgid = bufringsConn) :
    s.ringOfGroup bufringsConn = some bufringsConn := by
  have first : (s.app.bufrings 0).params.bgid = 0 := bgid
  simp [State.ringOfGroup, List.finRange_succ, bufringsConn, first]

private theorem RingMove.unmoved {ring next : Bufring} {held rest : List IoUringBuf} (same : next = ring)
    (kept : rest = held) : RingMove ring held none next rest := by
  rw [same, kept]
  exact .idle

theorem RingMove.received {ring next : Bufring} {held rest : List IoUringBuf} {buf : IoUringBuf}
    {br : IoUringBufRing}
    (taken : ring.br.take? (ioUringBufRingMask ring.params.entries) = some (buf, br))
    (moved : next = { ring with br := br }) (posted : rest = held ++ [buf]) :
    RingMove ring held none next rest := by
  rw [moved, posted]
  exact .receive taken

private theorem heldBufs_post (ring : IoUring) (index : ℕ) (c : Completion) :
    (ring.post index c).cq.filterMap (·.buf) = ring.cq.filterMap (·.buf) ++ c.buf.toList := by
  rw [IoUring.post, List.filterMap_append]
  cases filled : c.buf <;> simp [filled]

theorem Posted.ringMove {s next : State} {index : ℕ} {sqe : Sqe} (posted : Posted s index sqe next)
    (tagged : sqe.Tagged) (bgid : s.conn.params.bgid = bufringsConn) :
    RingMove s.conn s.heldBufs none next.conn next.heldBufs := by
  cases posted with
  | accepted request bounds fresh =>
    exact .unmoved rfl ((heldBufs_post ..).trans (List.append_nil _))
  | @received fd group ringIndex buf br payload more request known taken fits =>
    rw [tagged.group fd group request, ringOfGroup_conn bgid] at known
    cases known
    exact .received taken (Function.update_self bufringsConn _ s.app.bufrings) (heldBufs_post ..)
  | written request => exact .unmoved rfl ((heldBufs_post ..).trans (List.append_nil _))
  | ended allowed => exact .unmoved rfl ((heldBufs_post ..).trans (List.append_nil _))

theorem Step.ringMove {cfg : Config} {s next : State} {event : Event} (step : Step cfg s event next)
    (requested : Requested s.app.uring s.handled) (bgid : s.conn.params.bgid = bufringsConn) :
    (∃ stop, next = { s with stop := some stop }) ∨
      RingMove s.conn s.heldBufs (s.recycled? event) next.conn next.heldBufs := by
  cases step with
  | stops _ stop => exact .inl ⟨stop, rfl⟩
  | mainAccept ring =>
    refine .inr (.unmoved rfl ?_)
    rw [State.heldBufs, State.heldBufs, ← ring]
    rfl
  | mainLog log =>
    refine .inr (.unmoved (congrFun (logEvent_bufrings log) bufringsConn) ?_)
    rw [State.heldBufs, State.heldBufs, logEvent_cq log]
  | mainSubmit => exact .inr .idle
  | poll => exact .inr .idle
  | complete found posted =>
    exact .inr (posted.ringMove (requested.tagged _ (requested.live _ (List.mem_of_getElem? found))) bgid)
  | @iterate index answers c branch found handled =>
    right
    have genuine := (requested.posted c (mem_posted_of_cq found)).2
    have rings := handled.conn genuine
    have erased := filterMap_eraseIdx Completion.buf found
    have held : State.heldBufs { s with app := branch.finish index, handled := s.handled ++ [c] } =
        (s.app.uring.cq.eraseIdx index).filterMap (·.buf) := by
      rw [← handled.cq]
      rfl
    have label : s.recycled? (.iterate index answers) = c.buf := by
      simp [State.recycled?, found]
    rw [held, label]
    change RingMove s.conn s.heldBufs c.buf (branch.bufrings bufringsConn) _
    cases filled : c.buf with
    | none =>
      rw [filled] at rings erased
      exact .unmoved (congrFun rings bufringsConn) erased
    | some buf =>
      rw [filled] at rings erased
      obtain ⟨before, after, split, rest⟩ := erased
      rw [rings, rest]
      exact .recycle split

namespace IoUringBufRing

variable {br next : IoUringBufRing} {mask : ℕ} {buf : IoUringBuf}

theorem take?_eq_some_iff : br.take? mask = some (buf, next) ↔
    br.head ≠ br.tail ∧ buf = br.slots (br.head.toNat &&& mask) ∧
      next = { br with head := br.head + 1 } := by
  unfold take?
  split
  · next empty => simp [empty]
  · next filled => simp [filled, eq_comm]

/-- The 16-bit distance shrinks with a take, also across the wrap. -/
theorem available_take (filled : br.head ≠ br.tail) :
    { br with head := br.head + 1 }.available + 1 = br.available := by
  unfold available
  have distinct : br.head.toNat ≠ br.tail.toNat := fun same => filled (BitVec.eq_of_toNat_eq same)
  have := br.head.isLt
  have := br.tail.isLt
  have one : BitVec.toNat (1 : BitVec 16) = 1 := rfl
  simp only [BitVec.toNat_sub, BitVec.toNat_add, one]
  omega

theorem available_advance {slots : ℕ → IoUringBuf} (room : br.available + 1 < 2 ^ 16) :
    (ioUringBufRingAdvance { br with slots := slots } 1).available = br.available + 1 := by
  unfold available at *
  have := br.head.isLt
  have := br.tail.isLt
  simp only [ioUringBufRingAdvance, BitVec.toNat_sub, BitVec.toNat_add, BitVec.toNat_ofNat] at *
  omega

end IoUringBufRing

/-- The ring and the buffers held by unhandled completions are coherent and account for every
entry. -/
structure RingInvariant (params : BufringInitParams) (ring : Bufring) (held : List IoUringBuf) :
    Prop where
  registered : ring.params = params
  carved : ring.Carved bufringsConn
  coherent : ∀ i < params.entries, ring.Describes (ring.br.slots i)
  described : ∀ buf ∈ held, ring.Describes buf
  occupied : ring.br.available + held.length = params.entries

section RingInvariant

variable {params : BufringInitParams} {ring next : Bufring} {held rest : List IoUringBuf}
  {label : Option IoUringBuf} {k : ℕ}

/-- Recycling writes a described buffer into some slot and publishes one slot more. -/
theorem RingInvariant.recycle (invariant : RingInvariant params ring held)
    {buf : IoUringBuf} {before after : List IoUringBuf} (split : held = before ++ buf :: after) :
    RingInvariant params (ring.recycle buf.bid) (before ++ after) where
  registered := invariant.registered
  carved := invariant.carved
  coherent i inside := by
    have described := invariant.described buf (by simp [split])
    have small := ring.params.entries_lt
    have bound := described.bid_lt
    have written : ring.Describes ⟨(ring.bufs buf.bid).iovBase, (ring.bufs buf.bid).iovLen,
        buf.bid % 2 ^ 16⟩ := by
      rw [Nat.mod_eq_of_lt (by omega)]
      exact ⟨bound, rfl, rfl⟩
    rw [Bufring.describes_recycle]
    simp only [Bufring.recycle, ioUringBufRingAdvance, ioUringBufRingAdd, Function.update_apply]
    split
    · exact written
    · exact invariant.coherent i inside
  described other member := by
    rw [Bufring.describes_recycle]
    refine invariant.described other ?_
    rw [split]
    exact List.mem_append.mpr ((List.mem_append.mp member).imp id (List.mem_cons_of_mem _))
  occupied := by
    have count := invariant.occupied
    have small := params.entries_lt
    rw [split] at count
    simp only [List.length_append, List.length_cons] at count ⊢
    have room : ring.br.available + 1 < 2 ^ 16 := by omega
    rw [Bufring.recycle, ioUringBufRingAdd, IoUringBufRing.available_advance room]
    omega

theorem RingMove.keeps (move : RingMove ring held label next rest) (power : params.entries = 2 ^ k)
    (invariant : RingInvariant params ring held) : RingInvariant params next rest := by
  cases move with
  | idle => exact invariant
  | @receive buf br taken =>
    obtain ⟨filled, rfl, rfl⟩ := IoUringBufRing.take?_eq_some_iff.mp taken
    have count := IoUringBufRing.available_take filled
    have positive : 0 < params.entries := by rw [power]; exact Nat.two_pow_pos k
    refine ⟨invariant.registered, invariant.carved, ?_, ?_, ?_⟩
    · intro i inside
      exact (Bufring.describes_with_br ..).mpr (invariant.coherent i inside)
    · intro buf member
      rw [Bufring.describes_with_br]
      rcases List.mem_append.mp member with old | new
      · exact invariant.described buf old
      · obtain rfl := List.mem_singleton.mp new
        rw [invariant.registered, mask_eq_mod power]
        exact invariant.coherent _ (Nat.mod_lt _ positive)
    · have occupied := invariant.occupied
      simp only [List.length_append, List.length_singleton]
      omega
  | recycle split => exact invariant.recycle split

end RingInvariant

/-- A ring that `main` registered has a power of two of entries. -/
theorem Initial.conn {cfg : Config} {first : State} (initial : Initial cfg first) :
    ∃ k ≤ 15, (cfg.bufringParams bufringsConn).entries = 2 ^ k := by
  have registered := bufringInit_returns_iff.mp ⟨_, initial.bufrings bufringsConn⟩
  exact cfg.ring_registered bufringsConn registered.2

theorem Initial.ringInvariant {cfg : Config} {first : State} (initial : Initial cfg first) :
    RingInvariant (cfg.bufringParams bufringsConn) first.conn first.heldBufs := by
  obtain ⟨k, -, power⟩ := initial.conn
  obtain ⟨params, carved, head, tail, slots⟩ := bufringInit_spec power (initial.bufrings bufringsConn)
  change first.conn.params = _ at params
  have held : first.heldBufs = [] := by
    rw [State.heldBufs, initial.uring]
    rfl
  refine ⟨params, carved, ?_, by simp [held], ?_⟩
  · intro i inside
    have slot : first.conn.br.slots i = _ := slots i inside
    rw [slot]
    exact ⟨params ▸ inside, rfl, rfl⟩
  · have available : first.conn.br.available = (cfg.bufringParams bufringsConn).entries := by
      have small := (cfg.bufringParams bufringsConn).entries_lt
      rw [IoUringBufRing.available, State.conn, head, tail]
      simpa using Nat.mod_eq_of_lt small
    rw [held, available, List.length_nil, Nat.add_zero]

theorem Reachable.power {cfg : Config} {s : State} (reachable : Reachable cfg s) :
    ∃ k ≤ 15, (cfg.bufringParams bufringsConn).entries = 2 ^ k := by
  obtain ⟨first, -, start, -⟩ := reachable
  exact (initial_spec start).conn

theorem Reachable.ringInvariant {cfg : Config} {s : State} (reachable : Reachable cfg s) :
    RingInvariant (cfg.bufringParams bufringsConn) s.conn s.heldBufs := by
  refine reachable.invariant (fun first initial => initial.ringInvariant) ?_
  intro s event next reachable invariant step
  obtain ⟨k, -, power⟩ := reachable.power
  have bgid : s.conn.params.bgid = bufringsConn := invariant.registered ▸ cfg.conn_bgid
  rcases step.ringMove reachable.requested bgid with ⟨stop, rfl⟩ | move
  · exact invariant
  · exact move.keeps power invariant

end UringServer
