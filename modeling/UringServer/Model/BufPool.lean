import UringServer.Model.Assert
import UringServer.Model.Memory
import UringServer.Lib.IndexChain
import Mathlib.Algebra.Group.Nat.Defs

/-! # The pool of registered log buffers

Free buffers form an intrusive list over an array of nodes. A node knows its buffer id, its
`iovec` and the next free node; pointers into the arrays are indices. Popped nodes keep their
link until they are put back.
-/

namespace UringServer

open Fallible

/-- `struct bufpool_freebuf_t`; `bid` is 16 bits wide. -/
structure BufpoolFreebuf where
  bid : ℕ
  iov : ℕ
  next : Option ℕ
deriving DecidableEq, Repr

/-- `struct bufpool_t`. -/
structure Bufpool where
  iovecs : ℕ → Iovec
  freelistMem : ℕ → BufpoolFreebuf
  freelistHead : Option ℕ

/-- Multiplication of two `size_t`. -/
def sizeMul (a b : ℕ) : ℕ := a * b % 2 ^ 64

/-- The bytes that `bufpool_init` allocates for its buffers. -/
def bufpoolBytes (bufSize entries : ℕ) : ℕ := sizeMul entries bufSize

/-- The body of the loop of `bufpool_init` that carves buffer `i` and links its node. -/
def bufpoolLink (base : Ptr) (bufSize : ℕ) (pool : Bufpool) (i : ℕ) : Bufpool :=
  { iovecs := Function.update pool.iovecs i ⟨base.add (i * bufSize), bufSize⟩
    freelistMem := Function.update pool.freelistMem i ⟨i % 2 ^ 16, i, pool.freelistHead⟩
    freelistHead := some i }

/-- `bufpool_init`. `iovecs` and `freebs` hold what the allocator left there; the result of
`io_uring_register_buffers` comes from the caller. -/
def bufpoolInit (registerBuffers : ℤ) (iovecs : ℕ → Iovec) (freebs : ℕ → BufpoolFreebuf)
    (bufSize entries : ℕ) : Except Stop Bufpool := do
  let pool := (List.range entries).foldl (bufpoolLink ⟨.bufpool, 0⟩ bufSize)
    ⟨iovecs, freebs, none⟩
  assertPositive registerBuffers
  return pool

/-- `bufpool_pop`: the node taken and the pool without it, or null. -/
def bufpoolPop (self : Bufpool) : Option (BufpoolFreebuf × Bufpool) :=
  match self.freelistHead with
  | none => none
  | some node =>
      some (self.freelistMem node, { self with freelistHead := (self.freelistMem node).next })

/-- `bufpool_put`. -/
def bufpoolPut (self : Bufpool) (bid : ℕ) : Bufpool :=
  { self with
    freelistMem := Function.update self.freelistMem bid
      { self.freelistMem bid with next := self.freelistHead }
    freelistHead := some bid }

end UringServer
