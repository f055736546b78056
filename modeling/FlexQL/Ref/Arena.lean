import FlexQL.Lib.Bytes
import FlexQL.Lib.Cells
import FlexQL.Lib.Heap

/-!
# Row storage (`arena.h`, `arena.cpp`)

A bump allocator over chunks of memory. A pointer is a chunk and an offset in
it, and every access is checked against the capacity of the chunk: outside it
the access is undefined. A chunk that fails to be allocated throws; memory is
taken to suffice.
-/

namespace FlexQL.Ref

open Lib

/-- `Arena::Chunk` -/
structure Chunk where
  data : Nat → UInt8
  capacity : Nat

instance : Inhabited Chunk := ⟨⟨fun _ => 0, 0⟩⟩

/-- A `uint8_t*` into the arena. -/
structure Ptr where
  chunk : Nat
  offset : Nat
  deriving DecidableEq, Repr

/-- `Arena` -/
structure Arena where
  chunkSize : Nat
  currentOffset : Nat
  totalAllocated : Nat
  chunks : Heap Chunk

namespace Arena

/-- `allocate_new_chunk` -/
def allocateNewChunk (a : Arena) (minSize : Nat) : Arena :=
  { a with
    chunks := (a.chunks.alloc ⟨fun _ => 0, max minSize a.chunkSize⟩).1
    currentOffset := 0 }

/-- The constructor. -/
def new (chunkSize : Nat) : Arena :=
  allocateNewChunk ⟨chunkSize, 0, 0, Heap.empty⟩ chunkSize

/-- `(offset + alignment - 1) & ~(alignment - 1)` on `size_t` -/
def alignUp (offset alignment : Nat) : Nat :=
  (UInt64.ofNat (offset + alignment - 1) &&& ~~~ UInt64.ofNat (alignment - 1)).toNat

/-- `allocate`; `none` is the null pointer. -/
def allocate (a : Arena) (size : Nat) (alignment : Nat := 8) : Outcome (Arena × Option Ptr) := do
  if size = 0 then .ok (a, none)
  else
    let current ← a.chunks.get (a.chunks.size - 1)
    let alignedOffset := alignUp a.currentOffset alignment
    let (a, alignedOffset) :=
      if current.capacity < alignedOffset + size then
        (a.allocateNewChunk (size + alignment), 0)
      else (a, alignedOffset)
    let a := { a with
      currentOffset := alignedOffset + size
      totalAllocated := a.totalAllocated + size }
    .ok (a, some ⟨a.chunks.size - 1, alignedOffset⟩)

/-- `reset` keeps the first chunk. -/
def reset (a : Arena) : Arena :=
  { a with
    chunks := { a.chunks with size := min a.chunks.size 1 }
    currentOffset := 0
    totalAllocated := 0 }

/-- Copy `n` bytes out, from `offset` behind the pointer. -/
def read (a : Arena) (p : Ptr) (offset n : Nat) : Outcome Bytes := do
  let c ← a.chunks.get p.chunk
  if p.offset + offset + n ≤ c.capacity then
    .ok (firstN (fun i => c.data (p.offset + offset + i)) n)
  else .error .undefined

/-- Cells overwritten by the bytes of a string, from `pos` on. -/
def blit (f : Nat → UInt8) (pos : Nat) (w : Bytes) : Nat → UInt8 :=
  fun i => if pos ≤ i then w.getD (i - pos) (f i) else f i

/-- Copy bytes in, to `offset` behind the pointer. -/
def write (a : Arena) (p : Ptr) (offset : Nat) (w : Bytes) : Outcome Arena := do
  let c ← a.chunks.get p.chunk
  if p.offset + offset + w.length ≤ c.capacity then
    .ok { a with
      chunks := a.chunks.put p.chunk { c with data := blit c.data (p.offset + offset) w } }
  else .error .undefined

end Arena

end FlexQL.Ref
