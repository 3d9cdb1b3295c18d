import UringServer.Model.Assert
import UringServer.Model.Memory
import Mathlib.Algebra.Group.Int.Defs
import Mathlib.Data.BitVec
import Mathlib.Logic.Function.Basic

/-! # Provided-buffer rings

The program fills a ring of buffer descriptors shared with the kernel and publishes them through
a 16-bit tail; the kernel takes descriptors at a head of its own. `io_uring_buf_ring_add` writes
one slot at an offset from the tail and publishes nothing, `io_uring_buf_ring_advance` publishes.
-/

namespace UringServer

open Fallible

/-- `struct bufring_init_params_t`: three 16-bit fields. -/
structure BufringInitParams where
  entries : ℕ
  entrySize : ℕ
  bgid : ℕ
  entries_lt : entries < 2 ^ 16 := by decide
  entrySize_lt : entrySize < 2 ^ 16 := by decide
  bgid_lt : bgid < 2 ^ 16 := by decide

/-- `struct io_uring_buf`: one descriptor. -/
structure IoUringBuf where
  addr : Ptr
  len : ℕ
  bid : ℕ
deriving DecidableEq, Repr

/-- `struct io_uring_buf_ring`, with the kernel's position in it. -/
structure IoUringBufRing where
  slots : ℕ → IoUringBuf
  tail : BitVec 16
  head : BitVec 16

/-- `struct bufring_t`. -/
structure Bufring where
  br : IoUringBufRing
  bufs : ℕ → Iovec
  params : BufringInitParams

/-- Multiplication of two `int`: no value on overflow. -/
def intMul (a b : ℤ) : Option ℤ :=
  if -2 ^ 31 ≤ a * b ∧ a * b < 2 ^ 31 then some (a * b) else none

/-- The bytes that `bufring_init` allocates for its buffers, the 16-bit factors promoted to `int`. -/
def bufringBytes (params : BufringInitParams) : Option ℤ := intMul params.entries params.entrySize

/-- `io_uring_buf_ring_mask`. -/
def ioUringBufRingMask (entries : ℕ) : ℕ := entries - 1

/-- `io_uring_buf_ring_init`. -/
def ioUringBufRingInit (br : IoUringBufRing) : IoUringBufRing := { br with tail := 0 }

/-- The slot that `io_uring_buf_ring_add` writes: the one at `offset` from the tail. -/
def IoUringBufRing.addSlot (br : IoUringBufRing) (mask offset : ℕ) : ℕ :=
  (br.tail.toNat + offset) &&& mask

/-- `io_uring_buf_ring_add`. `bid` is 16 bits wide. -/
def ioUringBufRingAdd (br : IoUringBufRing) (addr : Ptr) (len bid mask offset : ℕ) :
    IoUringBufRing :=
  { br with slots := Function.update br.slots (br.addSlot mask offset) ⟨addr, len, bid % 2 ^ 16⟩ }

/-- `io_uring_buf_ring_advance`. -/
def ioUringBufRingAdvance (br : IoUringBufRing) (count : ℕ) : IoUringBufRing :=
  { br with tail := br.tail + BitVec.ofNat 16 count }

/-- The body of the loop of `bufring_init` that carves buffer `i` and adds it to the ring. -/
def bufringFill (base : Ptr) (params : BufringInitParams)
    (filled : IoUringBufRing × (ℕ → Iovec)) (i : ℕ) : IoUringBufRing × (ℕ → Iovec) :=
  let iov : Iovec := ⟨base.add (i * params.entrySize), params.entrySize⟩
  (ioUringBufRingAdd filled.1 iov.iovBase iov.iovLen i (ioUringBufRingMask params.entries) i,
    Function.update filled.2 i iov)

/-- The ring and the table of buffers after `count` rounds of the loop of `bufring_init`. -/
def bufringRounds (index : Fin bufringCount) (br : IoUringBufRing) (bufs : ℕ → Iovec)
    (params : BufringInitParams) (count : ℕ) : IoUringBufRing × (ℕ → Iovec) :=
  (List.range count).foldl (bufringFill ⟨.bufring index, 0⟩ params)
    (ioUringBufRingInit { br with head := 0 }, bufs)

/-- `bufring_init` for the ring at `index`. `br` and `bufs` hold what the allocator left there;
the results of `posix_memalign` and `io_uring_register_buf_ring` come from the caller. -/
def bufringInit (index : Fin bufringCount) (posixMemalign registerBufRing : ℤ)
    (br : IoUringBufRing) (bufs : ℕ → Iovec) (params : BufringInitParams) :
    Except Stop Bufring := do
  assertPositive (-posixMemalign)
  assertPositive registerBufRing
  let filled := bufringRounds index br bufs params params.entries
  return ⟨ioUringBufRingAdvance filled.1 params.entries, filled.2, params⟩

namespace IoUringBufRing

/-- How many published descriptors the kernel has not taken, by 16-bit subtraction. -/
def available (br : IoUringBufRing) : ℕ := (br.tail - br.head).toNat

/-- A receive takes the descriptor at the head unless the ring is empty. -/
def take? (br : IoUringBufRing) (mask : ℕ) : Option (IoUringBuf × IoUringBufRing) :=
  if br.head = br.tail then none
  else some (br.slots (br.head.toNat &&& mask), { br with head := br.head + 1 })

end IoUringBufRing

end UringServer
