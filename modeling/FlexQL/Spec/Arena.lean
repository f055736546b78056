import FlexQL.Lib.Actions
import FlexQL.Ref.Arena

/-!
# The calls of an arena

The arena with the blocks it has handed out since it was built or last reset.
A block stands with the size and the alignment it was asked for.
-/

namespace FlexQL.Spec

open Lib FlexQL.Ref

inductive ArenaCall where
  | allocate (size alignment : Nat)
  | reset
  deriving DecidableEq, Repr

/-- A block that was handed out. -/
structure Block where
  ptr : Ptr
  size : Nat
  alignment : Nat
  deriving DecidableEq, Repr

namespace Block

/-- The block is inside one chunk. -/
def Within (b : Block) (a : Arena) : Prop :=
  b.ptr.chunk < a.chunks.size ∧ b.ptr.offset + b.size ≤ (a.chunks.cell b.ptr.chunk).capacity

/-- No byte is in both blocks. -/
def Apart (b c : Block) : Prop :=
  b.ptr.chunk ≠ c.ptr.chunk ∨ b.ptr.offset + b.size ≤ c.ptr.offset ∨
    c.ptr.offset + c.size ≤ b.ptr.offset

end Block

/-- An arena and the blocks in use. -/
structure Ledger where
  arena : Arena
  blocks : List Block

namespace Ledger

def new (chunkSize : Nat) : Ledger := ⟨Arena.new chunkSize, []⟩

/-- A call, with the pointer it returns. -/
def call (s : Ledger) : ArenaCall → Outcome (Ledger × Option Ptr)
  | .allocate size alignment => do
      let (a, p) ← s.arena.allocate size alignment
      .ok (⟨a, s.blocks ++ (p.map fun p => ⟨p, size, alignment⟩).toList⟩, p)
  | .reset => .ok (⟨s.arena.reset, []⟩, none)

/-- A call with a size and a power of two, none of whose sums is too large for
a `size_t`. -/
def Proper (s : Ledger) : ArenaCall → Prop
  | .allocate size alignment =>
      let aligned := Arena.alignUp s.arena.currentOffset alignment
      0 < size ∧ (∃ k < 64, alignment = 2 ^ k) ∧
        s.arena.currentOffset + alignment - 1 < 2 ^ 64 ∧ aligned + size < 2 ^ 64 ∧
        ((s.arena.chunks.cell (s.arena.chunks.size - 1)).capacity < aligned + size →
          size + alignment < 2 ^ 64) ∧
        s.arena.totalAllocated + size < 2 ^ 64
  | .reset => True

instance (s : Ledger) (c : ArenaCall) : Decidable (s.Proper c) :=
  match c with
  | .allocate _ _ => inferInstanceAs (Decidable (_ ∧ _))
  | .reset => inferInstanceAs (Decidable True)

/-- The sizes and alignments asked for since the last reset, given those that
were asked for before. -/
def requests (before : List (Nat × Nat)) : List ArenaCall → List (Nat × Nat)
  | [] => before
  | .allocate size alignment :: calls => requests (before ++ [(size, alignment)]) calls
  | .reset :: calls => requests [] calls

end Ledger

end FlexQL.Spec
