import UringServer.Lib.Slices
import UringServer.Model.Memory

/-! # Allocations cut into buffers

`bufpool_init` and `bufring_init` cut one allocation each into buffers of one size. The bytes that an
`iovec` names are a set of pointers here; those of the carved buffers do not meet and leave no byte of
the allocation over.
-/

namespace UringServer

open Slices

/-- The bytes `[iov_base, iov_base + iov_len)`. -/
def Iovec.range (iov : Iovec) : Set Ptr :=
  {ptr | ptr.block = iov.iovBase.block ∧
    ptr.offset ∈ Set.Ico iov.iovBase.offset (iov.iovBase.offset + iov.iovLen)}

namespace Block

/-- The bytes of an allocation. -/
def range (block : Block) (bytes : ℕ) : Set Ptr := {ptr | ptr.block = block ∧ ptr.offset < bytes}

/-- Buffer `k` of an allocation that is cut into buffers of `size` bytes. -/
def carve (block : Block) (size k : ℕ) : Iovec := ⟨⟨block, k * size⟩, size⟩

variable {block : Block} {size count k l : ℕ}

theorem mem_range_carve_iff {ptr : Ptr} :
    ptr ∈ (block.carve size k).range ↔ ptr.block = block ∧ ptr.offset ∈ slice size k := Iff.rfl

/-- Two buffers share no byte. -/
theorem disjoint_carve (distinct : k ≠ l) :
    Disjoint (block.carve size k).range (block.carve size l).range := by
  have apart := Set.disjoint_left.mp (pairwise_disjoint size distinct)
  exact Set.disjoint_left.mpr fun ptr first second => apart first.2 second.2

/-- The buffers make up the allocation. -/
theorem biUnion_carve (block : Block) (size count : ℕ) :
    ⋃ k ∈ Set.Iio count, (block.carve size k).range = block.range (count * size) := by
  ext ptr
  simp only [Set.mem_iUnion, exists_prop, Set.mem_Iio, mem_range_carve_iff]
  change _ ↔ ptr.block = block ∧ ptr.offset < count * size
  rw [← exists_mem_slice_iff]
  constructor
  · rintro ⟨k, bound, same, inside⟩
    exact ⟨same, k, bound, inside⟩
  · rintro ⟨same, k, bound, inside⟩
    exact ⟨k, bound, same, inside⟩

end Block

end UringServer
