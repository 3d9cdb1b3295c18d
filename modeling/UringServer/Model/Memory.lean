import Mathlib.Data.List.Range
import Mathlib.Logic.Basic

/-! # Process memory shared with the kernel

A pointer names an allocation and an offset into it. The allocations are the ones the program
hands to the kernel: the log buffers and the memory behind each provided-buffer ring. A C `char`
is the Lean character of its code.
-/

namespace UringServer

/-- `BUFRINGS`. -/
abbrev bufringCount : ℕ := 2

/-- The blocks of memory that `bufpool_init` and `bufring_init` allocate for data. -/
inductive Block where
  | bufpool
  | bufring (index : Fin bufringCount)
deriving DecidableEq, Repr

/-- A position in a block. -/
structure Ptr where
  block : Block
  offset : ℕ
deriving DecidableEq, Repr

/-- Pointer arithmetic on `char *`. -/
def Ptr.add (ptr : Ptr) (bytes : ℕ) : Ptr := ⟨ptr.block, ptr.offset + bytes⟩

/-- `struct iovec`. -/
structure Iovec where
  iovBase : Ptr
  iovLen : ℕ
deriving DecidableEq, Repr

/-- The byte that ends a C string. -/
def nul : Char := '\x00'

abbrev Memory := Ptr → Char

namespace Memory

/-- The bytes of `[ptr, ptr + length)`. -/
def read (memory : Memory) (ptr : Ptr) (length : ℕ) : List Char :=
  (List.range length).map fun i => memory (ptr.add i)

/-- Store `data` from `ptr` on. -/
def write (memory : Memory) (ptr : Ptr) (data : List Char) : Memory := fun query =>
  if query.block = ptr.block ∧ ptr.offset ≤ query.offset then
    data.getD (query.offset - ptr.offset) (memory query)
  else memory query

/-- The C string at `ptr`, cut after `limit` bytes: what `%.*s` prints. -/
def cstring (memory : Memory) (ptr : Ptr) (limit : ℕ) : List Char :=
  (memory.read ptr limit).takeWhile (· != nul)

@[simp] theorem read_length (memory : Memory) (ptr : Ptr) (length : ℕ) :
    (memory.read ptr length).length = length := by
  simp [read]

theorem write_add (memory : Memory) (ptr : Ptr) {data : List Char} {i : ℕ} (bound : i < data.length) :
    memory.write ptr data (ptr.add i) = data[i] := by
  simp [write, Ptr.add, bound]

/-- Data reads back from where it was stored, also as the front of a longer write. -/
theorem read_write_self (memory : Memory) (ptr : Ptr) (data rest : List Char) :
    (memory.write ptr (data ++ rest)).read ptr data.length = data := by
  apply List.ext_getElem
  · simp
  · intro i leftBound rightBound
    have stored : i < (data ++ rest).length := by simp only [List.length_append]; omega
    simp only [read, List.getElem_map, List.getElem_range, write_add memory ptr stored]
    exact List.getElem_append_left rightBound

end Memory

end UringServer
