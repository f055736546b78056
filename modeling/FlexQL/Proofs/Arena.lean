import FlexQL.Spec.Arena
import Mathlib.Data.Nat.Bitwise

/-!
# Memory of the arena

`Holds a p off w` says that the bytes `w` stand at `off` behind the pointer
`p`. A write makes it true of what was written and keeps it for every range
the write does not touch. The allocator hands out blocks in ascending order
within a chunk, so a new block is never one that is in use.
-/

namespace FlexQL.Proofs

open Lib FlexQL.Ref FlexQL.Spec

/-- The bytes at `off` behind `p` are `w`. -/
def Holds (a : Arena) (p : Ptr) (off : Nat) (w : Bytes) : Prop :=
  a.read p off w.length = .ok w

/-- `n` bytes from `off` behind `p` are inside the chunk of `p`. -/
structure InBounds (a : Arena) (p : Ptr) (off n : Nat) : Prop where
  chunk : p.chunk < a.chunks.size
  cap : p.offset + off + n ≤ (a.chunks.cell p.chunk).capacity

section Access

variable {a a' : Arena} {p q : Ptr} {off off' n : Nat} {w w' : Bytes}

theorem read_of_inBounds (h : InBounds a p off n) :
    a.read p off n = .ok (firstN
      (fun i => (a.chunks.cell p.chunk).data (p.offset + off + i)) n) := by
  rw [Arena.read, Heap.get_of_lt h.chunk, Outcome.bind_ok, if_pos h.cap]

theorem holds_iff : Holds a p off w ↔ InBounds a p off w.length ∧
    firstN (fun i => (a.chunks.cell p.chunk).data (p.offset + off + i)) w.length = w := by
  constructor
  · intro h
    rw [Holds, Arena.read] at h
    obtain ⟨c, hc, h⟩ := Outcome.bind_eq_ok.mp h
    rw [Heap.get] at hc
    split at hc
    · next hlt =>
        obtain rfl := Except.ok.inj hc
        split at h
        · next hcap => exact ⟨⟨hlt, hcap⟩, Except.ok.inj h⟩
        · exact absurd h (by simp)
    · exact absurd hc (by simp)
  · rintro ⟨hb, hw⟩
    rw [Holds, read_of_inBounds hb, hw]

theorem Holds.inBounds (h : Holds a p off w) : InBounds a p off w.length := (holds_iff.mp h).1

/-- Byte by byte. -/
theorem holds_iff_getElem? : Holds a p off w ↔ InBounds a p off w.length ∧
    ∀ i, i < w.length →
      w[i]? = some ((a.chunks.cell p.chunk).data (p.offset + off + i)) := by
  rw [holds_iff]
  refine and_congr_right fun _ => ⟨fun h i hi => ?_, fun h => ?_⟩
  · rw [← h, firstN_getElem?, if_pos hi]
  · apply List.ext_getElem? fun i => ?_
    rw [firstN_getElem?]
    split
    · next hi => rw [h i hi]
    · next hi => rw [List.getElem?_eq_none (by omega)]

theorem holds_append : Holds a p off (w ++ w') ↔
    Holds a p off w ∧ Holds a p (off + w.length) w' := by
  simp only [holds_iff_getElem?]
  constructor
  · rintro ⟨⟨hc, hcap⟩, hget⟩
    rw [List.length_append] at hcap
    refine ⟨⟨⟨hc, by omega⟩, fun i hi => ?_⟩, ⟨⟨hc, by omega⟩, fun i hi => ?_⟩⟩
    · rw [← hget i (by rw [List.length_append]; omega), List.getElem?_append_left hi]
    · have := hget (w.length + i) (by rw [List.length_append]; omega)
      rw [List.getElem?_append_right (by omega), Nat.add_sub_cancel_left] at this
      rw [this]
      congr 2
      omega
  · rintro ⟨⟨⟨hc, hcap⟩, hget⟩, ⟨_, hcap'⟩, hget'⟩
    refine ⟨⟨hc, by rw [List.length_append]; omega⟩, fun i hi => ?_⟩
    rw [List.length_append] at hi
    by_cases hlt : i < w.length
    · rw [List.getElem?_append_left hlt, hget i hlt]
    · rw [List.getElem?_append_right (by omega), hget' (i - w.length) (by omega)]
      congr 2
      omega

/-- The arena after a write. -/
theorem write_of_inBounds (h : InBounds a p off w.length) : a.write p off w = .ok { a with
    chunks := a.chunks.put p.chunk { a.chunks.cell p.chunk with
      data := Arena.blit (a.chunks.cell p.chunk).data (p.offset + off) w } } := by
  rw [Arena.write, Heap.get_of_lt h.chunk, Outcome.bind_ok, if_pos h.cap]

theorem blit_in (f : Nat → UInt8) {pos i : Nat} (hi : i < w.length) :
    w[i]? = some (Arena.blit f pos w (pos + i)) := by
  rw [Arena.blit, if_pos (Nat.le_add_right _ _), Nat.add_sub_cancel_left,
    List.getD_eq_getElem?_getD, List.getElem?_eq_getElem hi, Option.getD_some]

theorem blit_out (f : Nat → UInt8) {pos i : Nat} (hi : i < pos ∨ pos + w.length ≤ i) :
    Arena.blit f pos w i = f i := by
  rw [Arena.blit]
  split
  · rw [List.getD_eq_default _ _ (by omega)]
  · rfl

/-- The `n` bytes from `off` behind `q` are outside the bytes from `lo` up to
`hi` behind `p`. -/
def Outside (q : Ptr) (off n : Nat) (p : Ptr) (lo hi : Nat) : Prop :=
  q.chunk ≠ p.chunk ∨ q.offset + off + n ≤ p.offset + lo ∨ p.offset + hi ≤ q.offset + off

/-- Nothing but bytes from `lo` up to `hi` behind `p` has changed. -/
structure Changed (a a' : Arena) (p : Ptr) (lo hi : Nat) : Prop where
  frame : ∀ q off w, Outside q off w.length p lo hi → Holds a q off w → Holds a' q off w
  bounds : ∀ q off n, InBounds a q off n → InBounds a' q off n
  chunkSize : a'.chunkSize = a.chunkSize
  chunks : a'.chunks.size = a.chunks.size
  offset : a'.currentOffset = a.currentOffset
  capacity : ∀ i, (a'.chunks.cell i).capacity = (a.chunks.cell i).capacity

theorem Outside.mono {lo hi lo' hi' : Nat} (h : Outside q off n p lo hi) (hlo : lo ≤ lo')
    (hhi : hi' ≤ hi) : Outside q off n p lo' hi' := by
  rcases h with h | h | h
  · exact .inl h
  · exact .inr (.inl (by omega))
  · exact .inr (.inr (by omega))

theorem Changed.refl (a : Arena) (p : Ptr) (lo hi : Nat) : Changed a a p lo hi :=
  ⟨fun _ _ _ _ h => h, fun _ _ _ h => h, rfl, rfl, rfl, fun _ => rfl⟩

theorem Changed.trans {a'' : Arena} {lo hi lo' hi' : Nat} (h : Changed a a' p lo hi)
    (h' : Changed a' a'' p lo' hi') : Changed a a'' p (min lo lo') (max hi hi') := by
  refine ⟨fun q off w ho hq => ?_, fun q off n hq => h'.bounds q off n (h.bounds q off n hq),
    h'.chunkSize.trans h.chunkSize, h'.chunks.trans h.chunks, h'.offset.trans h.offset,
    fun i => (h'.capacity i).trans (h.capacity i)⟩
  exact h'.frame q off w (ho.mono (Nat.min_le_right _ _) (Nat.le_max_right _ _))
    (h.frame q off w (ho.mono (Nat.min_le_left _ _) (Nat.le_max_left _ _)) hq)

theorem Changed.widen {lo hi lo' hi' : Nat} (h : Changed a a' p lo hi) (hlo : lo' ≤ lo)
    (hhi : hi ≤ hi') : Changed a a' p lo' hi' :=
  { h with frame := fun q off w ho hq => h.frame q off w (ho.mono hlo hhi) hq }

theorem write_spec (h : InBounds a p off w.length) :
    ∃ a', a.write p off w = .ok a' ∧ Holds a' p off w ∧
      Changed a a' p off (off + w.length) := by
  have hself : ∀ c : Chunk, (a.chunks.put p.chunk c).cell p.chunk = c :=
    fun c => Heap.put_cell_self ..
  refine ⟨_, write_of_inBounds h, ?_, ?_, ?_, rfl, rfl, rfl, ?_⟩
  · rw [holds_iff_getElem?]
    refine ⟨⟨h.chunk, by rw [hself]; exact h.cap⟩, fun i hi => ?_⟩
    rw [hself, blit_in _ hi]
  · intro q off' w' hout hq
    rw [holds_iff_getElem?] at hq ⊢
    obtain ⟨⟨hc, hcap⟩, hget⟩ := hq
    by_cases he : q.chunk = p.chunk
    · rw [he] at hc hcap hget ⊢
      rw [hself]
      refine ⟨⟨by rw [he]; exact hc, by rw [he, hself]; exact hcap⟩, fun i hi => ?_⟩
      rw [hget i hi]
      refine congrArg some (blit_out _ ?_).symm
      rcases hout with hout | hout | hout
      · exact absurd he hout
      · exact .inl (by omega)
      · exact .inr (by omega)
    · have hne : (a.chunks.put p.chunk { a.chunks.cell p.chunk with
          data := Arena.blit (a.chunks.cell p.chunk).data (p.offset + off) w }).cell q.chunk
          = a.chunks.cell q.chunk := Heap.put_cell_ne _ _ he
      rw [hne]
      exact ⟨⟨hc, by rw [hne]; exact hcap⟩, hget⟩
  · intro q off' n hq
    refine ⟨hq.chunk, ?_⟩
    rw [Heap.put_cell]
    split
    · next he => rw [← he]; exact hq.cap
    · exact hq.cap
  · intro i
    rw [Heap.put_cell]
    split
    · next he => rw [he]
    · rfl

end Access

/-! ## Allocation -/

/-- Clearing the low bits rounds down. -/
theorem and_not_mask {n k : Nat} (hn : n < 2 ^ 64) (hk : k ≤ 64) :
    n &&& (2 ^ 64 - 1 - (2 ^ k - 1)) = n / 2 ^ k * 2 ^ k := by
  have hmask : 2 ^ 64 - 1 - (2 ^ k - 1) = (2 ^ (64 - k) - 1) * 2 ^ k := by
    rw [Nat.sub_mul, ← Nat.pow_add, Nat.sub_add_cancel hk]
    have := Nat.one_le_two_pow (n := k)
    omega
  apply Nat.eq_of_testBit_eq
  intro i
  rw [hmask, Nat.testBit_and, ← Nat.shiftLeft_eq, ← Nat.shiftLeft_eq, Nat.testBit_shiftLeft,
    Nat.testBit_shiftLeft, Nat.testBit_two_pow_sub_one, Nat.testBit_div_two_pow]
  by_cases hki : k ≤ i
  · rw [Nat.sub_add_cancel hki]
    by_cases h64 : i < 64
    · simp [hki, show i - k < 64 - k by omega]
    · rw [Nat.testBit_lt_two_pow (Nat.lt_of_lt_of_le hn (Nat.pow_le_pow_right (by omega)
        (show 64 ≤ i by omega)))]
      simp
  · simp [hki]

theorem alignUp_eq {x k : Nat} (hk : k < 64) (hx : x + 2 ^ k - 1 < 2 ^ 64) :
    Arena.alignUp x (2 ^ k) = (x + 2 ^ k - 1) / 2 ^ k * 2 ^ k := by
  have hp := Nat.one_le_two_pow (n := k)
  have hk' : 2 ^ k < 2 ^ 64 := Nat.pow_lt_pow_right (by omega) hk
  rw [Arena.alignUp, UInt64.toNat_and, UInt64.toNat_not, UInt64.toNat_ofNat_of_lt' hx,
    UInt64.toNat_ofNat_of_lt' (show 2 ^ k - 1 < 2 ^ 64 by omega)]
  exact and_not_mask hx (Nat.le_of_lt hk)

/-- A multiple of the alignment, and not below. -/
theorem alignUp_spec {x k : Nat} (hk : k < 64) (hx : x + 2 ^ k - 1 < 2 ^ 64) :
    x ≤ Arena.alignUp x (2 ^ k) ∧ 2 ^ k ∣ Arena.alignUp x (2 ^ k) := by
  rw [alignUp_eq hk hx]
  refine ⟨?_, Nat.dvd_mul_left _ _⟩
  have hpos : 0 < 2 ^ k := Nat.two_pow_pos k
  have hmod := Nat.mod_lt (x + 2 ^ k - 1) hpos
  have hdiv := Nat.div_add_mod' (x + 2 ^ k - 1) (2 ^ k)
  omega

theorem alignUp_eight {x : Nat} (hx : x + 7 < 2 ^ 64) :
    x ≤ Arena.alignUp x 8 ∧ Arena.alignUp x 8 ≤ x + 7 := by
  have h := alignUp_eq (x := x) (k := 3) (by decide) (by omega)
  rw [show (8 : Nat) = 2 ^ 3 from rfl, h]
  omega

/-- Bump the offset over a block that starts at `off`. -/
def bump (a : Arena) (off size : Nat) : Arena :=
  { a with currentOffset := off + size, totalAllocated := a.totalAllocated + size }

/-- What `allocate` does: a block in the chunk in use, or in a new one. -/
theorem allocate_eq {a : Arena} {size alignment : Nat} (hsize : 0 < size)
    (hchunks : 0 < a.chunks.size) : a.allocate size alignment =
      if (a.chunks.cell (a.chunks.size - 1)).capacity <
        Arena.alignUp a.currentOffset alignment + size
      then .ok (bump (a.allocateNewChunk (size + alignment)) 0 size, some ⟨a.chunks.size, 0⟩)
      else .ok (bump a (Arena.alignUp a.currentOffset alignment) size,
        some ⟨a.chunks.size - 1, Arena.alignUp a.currentOffset alignment⟩) := by
  have hlast : a.chunks.size - 1 < a.chunks.size := by omega
  rw [Arena.allocate, if_neg (by omega), Heap.get_of_lt hlast, Outcome.bind_ok]
  by_cases hfull : (a.chunks.cell (a.chunks.size - 1)).capacity <
      Arena.alignUp a.currentOffset alignment + size
  · simp only [if_pos hfull]
    rfl
  · simp only [if_neg hfull]
    rfl

/-! ### Blocks of any size -/

/-- The blocks in use: those of the last chunk are below the offset. -/
structure Placed (a : Arena) (bs : List Block) : Prop where
  chunks : 0 < a.chunks.size
  within : ∀ b ∈ bs, b.Within a
  used : ∀ b ∈ bs, b.ptr.chunk = a.chunks.size - 1 → b.ptr.offset + b.size ≤ a.currentOffset
  apart : bs.Pairwise Block.Apart

section Placed

variable {a : Arena} {bs : List Block} {off size alignment : Nat}

theorem placed_nil (h : 0 < a.chunks.size) : Placed a [] := ⟨h, by simp, by simp, .nil⟩

/-- A block behind the offset. -/
theorem Placed.bump (h : Placed a bs) (hoff : a.currentOffset ≤ off)
    (hcap : off + size ≤ (a.chunks.cell (a.chunks.size - 1)).capacity) :
    Placed (bump a off size) (bs ++ [⟨⟨a.chunks.size - 1, off⟩, size, alignment⟩]) := by
  have hlast : a.chunks.size - 1 < a.chunks.size := Nat.sub_lt h.chunks Nat.zero_lt_one
  refine ⟨h.chunks, ?_, ?_, ?_⟩
  · intro b hb
    rcases List.mem_append.mp hb with hb | hb
    · exact h.within b hb
    · rw [List.mem_singleton.mp hb]
      exact ⟨hlast, hcap⟩
  · intro b hb hc
    show b.ptr.offset + b.size ≤ off + size
    rcases List.mem_append.mp hb with hb | hb
    · have hused := h.used b hb hc
      omega
    · rw [List.mem_singleton.mp hb]
  · refine List.pairwise_append.mpr ⟨h.apart, List.pairwise_singleton _ _, ?_⟩
    intro b hb c hc
    rw [List.mem_singleton.mp hc]
    by_cases hchunk : b.ptr.chunk = a.chunks.size - 1
    · have hused := h.used b hb hchunk
      exact .inr (.inl (by show b.ptr.offset + b.size ≤ off; omega))
    · exact .inl hchunk

/-- A new chunk has none of the blocks. -/
theorem Placed.newChunk (h : Placed a bs) (m : Nat) : Placed (a.allocateNewChunk m) bs := by
  refine ⟨Nat.succ_pos _, ?_, ?_, h.apart⟩
  · intro b hb
    obtain ⟨hc, hcap⟩ := h.within b hb
    refine ⟨Nat.lt_succ_of_lt hc, ?_⟩
    rw [show (a.allocateNewChunk m).chunks.cell b.ptr.chunk = a.chunks.cell b.ptr.chunk from
      Heap.alloc_cell_lt _ _ hc]
    exact hcap
  · intro b hb hc
    have hlt := (h.within b hb).1
    have hc' : b.ptr.chunk = a.chunks.size := hc
    omega

theorem Placed.allocate {k : Nat} (h : Placed a bs) (hsize : 0 < size) (hk : k < 64)
    (hx : a.currentOffset + 2 ^ k - 1 < 2 ^ 64) :
    ∃ a' p, a.allocate size (2 ^ k) = .ok (a', some p) ∧ Placed a' (bs ++ [⟨p, size, 2 ^ k⟩]) ∧
      2 ^ k ∣ p.offset ∧ a'.totalAllocated = a.totalAllocated + size := by
  obtain ⟨hle, hdvd⟩ := alignUp_spec hk hx
  rw [allocate_eq hsize h.chunks]
  split
  · refine ⟨_, _, rfl, ?_, Nat.dvd_zero _, rfl⟩
    refine (h.newChunk (size + 2 ^ k)).bump (Nat.le_refl 0) ?_
    show 0 + size ≤ ((a.allocateNewChunk (size + 2 ^ k)).chunks.cell a.chunks.size).capacity
    rw [show (a.allocateNewChunk (size + 2 ^ k)).chunks.cell a.chunks.size =
      ⟨fun _ => 0, max (size + 2 ^ k) a.chunkSize⟩ from Heap.alloc_cell_self ..]
    exact Nat.le_trans (by omega) (Nat.le_max_left _ _)
  · next hroom =>
      exact ⟨_, _, rfl, h.bump hle (by omega), hdvd, rfl⟩

end Placed

/-! ### Blocks of one size -/

/-- The blocks of `size` bytes at `ps` are all that is in use. -/
structure Blocks (a : Arena) (size : Nat) (ps : List Ptr) : Prop where
  chunks : 0 < a.chunks.size
  offset : a.currentOffset ≤ (a.chunks.cell (a.chunks.size - 1)).capacity
  small : ∀ i, (a.chunks.cell i).capacity ≤ 2 ^ 33
  chunkSize : a.chunkSize ≤ 2 ^ 33
  inside : ∀ p ∈ ps, InBounds a p 0 size
  used : ∀ p ∈ ps, p.chunk = a.chunks.size - 1 → p.offset + size ≤ a.currentOffset
  apart : ps.Pairwise fun p q => Outside p 0 size q 0 size

/-- A block of that size. -/
def blockOf (size : Nat) (p : Ptr) : Block := ⟨p, size, 8⟩

theorem Blocks.placed {a : Arena} {size : Nat} {ps : List Ptr} (h : Blocks a size ps) :
    Placed a (ps.map (blockOf size)) := by
  refine ⟨h.chunks, ?_, ?_, List.pairwise_map.mpr h.apart⟩
  · exact List.forall_mem_map.mpr fun p hp => ⟨(h.inside p hp).chunk, (h.inside p hp).cap⟩
  · exact List.forall_mem_map.mpr h.used

theorem Placed.blocks {a : Arena} {size : Nat} {ps : List Ptr}
    (h : Placed a (ps.map (blockOf size)))
    (hoff : a.currentOffset ≤ (a.chunks.cell (a.chunks.size - 1)).capacity)
    (hsmall : ∀ i, (a.chunks.cell i).capacity ≤ 2 ^ 33) (hchunk : a.chunkSize ≤ 2 ^ 33) :
    Blocks a size ps := by
  refine ⟨h.chunks, hoff, hsmall, hchunk, ?_, ?_, List.pairwise_map.mp h.apart⟩
  · intro p hp
    obtain ⟨hc, hcap⟩ := h.within _ (List.mem_map_of_mem hp)
    exact ⟨hc, hcap⟩
  · exact fun p hp => h.used _ (List.mem_map_of_mem hp)

theorem blocks_new {size chunkSize : Nat} (h : chunkSize ≤ 2 ^ 33) :
    Blocks (Arena.new chunkSize) size [] := by
  refine ⟨Nat.zero_lt_one, Nat.zero_le _, ?_, h, by simp, by simp, List.Pairwise.nil⟩
  intro i
  simp only [Arena.new, Arena.allocateNewChunk, Heap.alloc_cell]
  split
  · rw [Nat.max_self]
    exact h
  · exact Nat.zero_le _

theorem Blocks.changed {a a' : Arena} {size lo hi : Nat} {ps : List Ptr} {p : Ptr}
    (h : Blocks a size ps) (hw : Changed a a' p lo hi) : Blocks a' size ps := by
  refine ⟨by rw [hw.chunks]; exact h.chunks, ?_, fun i => by rw [hw.capacity]; exact h.small i,
    by rw [hw.chunkSize]; exact h.chunkSize, fun q hq => hw.bounds q 0 size (h.inside q hq),
    ?_, h.apart⟩
  · rw [hw.offset, hw.chunks, hw.capacity]
    exact h.offset
  · rw [hw.offset, hw.chunks]
    exact h.used

/-- What an allocation does: a new block, and no byte changed. -/
structure Allocated (a a' : Arena) (size : Nat) (ps : List Ptr) (p : Ptr) : Prop where
  blocks : Blocks a' size (ps ++ [p])
  keep : ∀ q off w, Holds a q off w → Holds a' q off w

theorem Blocks.bump {a : Arena} {size off : Nat} {ps : List Ptr} (h : Blocks a size ps)
    (hoff : a.currentOffset ≤ off)
    (hcap : off + size ≤ (a.chunks.cell (a.chunks.size - 1)).capacity) :
    Allocated a (bump a off size) size ps ⟨a.chunks.size - 1, off⟩ := by
  refine ⟨Placed.blocks ?_ hcap h.small h.chunkSize, fun q o w hq => hq⟩
  rw [List.map_append]
  exact h.placed.bump hoff hcap

/-- A new chunk leaves the old ones alone. -/
theorem Blocks.newChunk {a : Arena} {size m : Nat} {ps : List Ptr} (h : Blocks a size ps)
    (hm : m ≤ 2 ^ 33) : Blocks (a.allocateNewChunk m) size ps ∧
      (∀ q off w, Holds a q off w → Holds (a.allocateNewChunk m) q off w) ∧
      m ≤ ((a.allocateNewChunk m).chunks.cell a.chunks.size).capacity := by
  have hold : ∀ i, i < a.chunks.size →
      (a.allocateNewChunk m).chunks.cell i = a.chunks.cell i := fun i hi =>
    Heap.alloc_cell_lt _ _ hi
  have hself : (a.allocateNewChunk m).chunks.cell a.chunks.size
      = ⟨fun _ => 0, max m a.chunkSize⟩ := Heap.alloc_cell_self ..
  refine ⟨(h.placed.newChunk m).blocks (Nat.zero_le _) ?_ h.chunkSize, ?_, ?_⟩
  · intro i
    simp only [Arena.allocateNewChunk, Heap.alloc_cell]
    split
    · exact Nat.max_le.mpr ⟨hm, h.chunkSize⟩
    · exact h.small i
  · intro q off w hq
    rw [holds_iff] at hq ⊢
    obtain ⟨⟨hc, hcap⟩, hw⟩ := hq
    rw [hold _ hc]
    exact ⟨⟨Nat.lt_succ_of_lt hc, by rw [hold _ hc]; exact hcap⟩, hw⟩
  · rw [hself]
    exact Nat.le_max_left _ _

theorem allocate_spec {a : Arena} {size : Nat} {ps : List Ptr} (h : Blocks a size ps)
    (hpos : 0 < size) (hsize : size ≤ 2 ^ 32) :
    ∃ a' p, a.allocate size = .ok (a', some p) ∧ Allocated a a' size ps p := by
  have hcap := h.small (a.chunks.size - 1)
  have hoff := h.offset
  obtain ⟨hle, _⟩ := alignUp_eight (x := a.currentOffset) (by omega)
  rw [allocate_eq hpos h.chunks]
  split
  · obtain ⟨hblocks, hkeep, hroom⟩ := h.newChunk (m := size + 8) (by omega)
    obtain ⟨hb, hk⟩ := hblocks.bump (Nat.le_refl 0) (by
      show 0 + size ≤ ((a.allocateNewChunk (size + 8)).chunks.cell a.chunks.size).capacity
      omega)
    exact ⟨_, _, rfl, hb, fun q off w hq => hk q off w (hkeep q off w hq)⟩
  · exact ⟨_, _, rfl, h.bump hle (by omega)⟩

/-! ## Any calls -/

/-- What is true of the blocks in use, and of the number of their bytes. -/
structure Accounted (s : Ledger) : Prop where
  placed : Placed s.arena s.blocks
  aligned : ∀ b ∈ s.blocks, b.alignment ∣ b.ptr.offset
  total : s.arena.totalAllocated = (s.blocks.map (·.size)).sum

theorem accounted_new (chunkSize : Nat) : Accounted (Ledger.new chunkSize) :=
  ⟨placed_nil Nat.one_pos, by simp [Ledger.new], rfl⟩

theorem Accounted.call {s : Ledger} {c : ArenaCall} (h : Accounted s) (hc : s.Proper c) :
    ∃ s' p, s.call c = .ok (s', p) ∧ Accounted s' ∧
      s'.blocks.map (fun b => (b.size, b.alignment)) =
        Ledger.requests (s.blocks.map fun b => (b.size, b.alignment)) [c] := by
  cases c with
  | allocate size alignment =>
      obtain ⟨hsize, ⟨k, hk, rfl⟩, hx, -⟩ := hc
      obtain ⟨a', p, halloc, hplaced, hdvd, htotal⟩ := h.placed.allocate hsize hk hx
      refine ⟨⟨a', s.blocks ++ [⟨p, size, 2 ^ k⟩]⟩, some p, ?_, ⟨hplaced, ?_, ?_⟩, ?_⟩
      · rw [Ledger.call, halloc]
        rfl
      · intro b hb
        rcases List.mem_append.mp hb with hb | hb
        · exact h.aligned b hb
        · rw [List.mem_singleton.mp hb]
          exact hdvd
      · show a'.totalAllocated = _
        rw [htotal, h.total, List.map_append, List.sum_append]
        rfl
      · rw [List.map_append]
        rfl
  | reset =>
      refine ⟨⟨s.arena.reset, []⟩, none, rfl, ⟨placed_nil ?_, by simp, rfl⟩, rfl⟩
      have hchunks := h.placed.chunks
      show 0 < min s.arena.chunks.size 1
      omega

theorem requests_append (before : List (Nat × Nat)) (calls more : List ArenaCall) :
    Ledger.requests before (calls ++ more) =
      Ledger.requests (Ledger.requests before calls) more := by
  induction calls generalizing before with
  | nil => rfl
  | cons c calls ih => cases c <;> exact ih _

/-- The blocks of any sequence of calls: there is one for every request since
the last reset, each in one chunk and at a multiple of its alignment, and no
two have a byte in common. -/
theorem allocations_apart {chunkSize : Nat} {calls : List ArenaCall}
    (h : Actions.Along Ledger.call (fun _ s c => s.Proper c) [] (Ledger.new chunkSize) calls) :
    ∃ s ps, Actions.runAll Ledger.call (Ledger.new chunkSize) calls = .ok (s, ps) ∧
      s.blocks.map (fun b => (b.size, b.alignment)) = Ledger.requests [] calls ∧
      (∀ b ∈ s.blocks, b.Within s.arena ∧ b.alignment ∣ b.ptr.offset) ∧
      s.blocks.Pairwise Block.Apart ∧
      s.arena.totalAllocated = (s.blocks.map (·.size)).sum := by
  obtain ⟨s, ps, hrun, hs, hrequests⟩ := h.returns_past
    (R := fun past s => Accounted s ∧
      s.blocks.map (fun b => (b.size, b.alignment)) = Ledger.requests [] past)
    (fun past s c ⟨hs, hpast⟩ hc => by
      obtain ⟨s', p, hcall, hs', hmap⟩ := hs.call hc
      exact ⟨s', p, hcall, hs', by rw [hmap, requests_append, hpast]⟩)
    ⟨accounted_new chunkSize, rfl⟩
  exact ⟨s, ps, hrun, hrequests, fun b hb => ⟨hs.placed.within b hb, hs.aligned b hb⟩,
    hs.placed.apart, hs.total⟩

/-- A reset, and an alignment that does not fit into the first chunk. -/
theorem allocations_apart_mixed : ∃ s ps,
    Actions.runAll Ledger.call (Ledger.new 16)
      [.allocate 3 1, .reset, .allocate 5 2, .allocate 1 16, .allocate 4 4] = .ok (s, ps) ∧
    s.blocks.Pairwise Block.Apart ∧ s.blocks.map (·.ptr) = [⟨0, 0⟩, ⟨1, 0⟩, ⟨1, 4⟩] := by
  have hproper : Actions.Along Ledger.call (fun _ s c => s.Proper c) [] (Ledger.new 16)
      [.allocate 3 1, .reset, .allocate 5 2, .allocate 1 16, .allocate 4 4] := by
    refine ⟨by decide +kernel, fun s₁ r₁ h₁ => ?_⟩
    obtain rfl := congrArg Prod.fst (Except.ok.inj h₁)
    refine ⟨trivial, fun s₂ r₂ h₂ => ?_⟩
    obtain rfl := congrArg Prod.fst (Except.ok.inj h₂)
    refine ⟨by decide +kernel, fun s₃ r₃ h₃ => ?_⟩
    obtain rfl := congrArg Prod.fst (Except.ok.inj h₃)
    refine ⟨by decide +kernel, fun s₄ r₄ h₄ => ?_⟩
    obtain rfl := congrArg Prod.fst (Except.ok.inj h₄)
    exact ⟨by decide +kernel, fun _ _ _ => trivial⟩
  have hptrs : (Actions.runAll Ledger.call (Ledger.new 16)
      [.allocate 3 1, .reset, .allocate 5 2, .allocate 1 16, .allocate 4 4]).map
        (fun x => x.1.blocks.map (·.ptr)) = .ok [⟨0, 0⟩, ⟨1, 0⟩, ⟨1, 4⟩] := by
    decide +kernel
  obtain ⟨s, ps, hrun, -, -, hapart, -⟩ := allocations_apart hproper
  rw [hrun] at hptrs
  exact ⟨s, ps, hrun, hapart, Except.ok.inj hptrs⟩

end FlexQL.Proofs
