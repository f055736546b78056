import FlexQL.Proofs.BPTreeInsert
import Mathlib.Algebra.BigOperators.Group.Finset.Basic

/-!
# How full the nodes are

A split leaves both halves with at least `share` keys, and a node never loses
keys otherwise, so every node but the root has its share: half an order for a
leaf, one key less for an internal node, which gives one key away. The keys of
the leaves add up to the size of the tree. `Filled` says both of a pool of
nodes, and this module goes through the pools a split makes. Nothing here
depends on the order of the keys.
-/

namespace FlexQL.Proofs

open Lib FlexQL.Ref

/-- The keys that a node other than the root has at least. -/
def share (n : Node) : Nat := if n.isLeaf then bptreeOrder / 2 else BPTree.minKeys

/-- The entries a node holds; those of an internal node are separators. -/
def load (n : Node) : Nat := if n.isLeaf then n.numKeys else 0

theorem share_leaf {n : Node} (h : n.isLeaf = true) : share n = bptreeOrder / 2 := if_pos h

theorem share_inner {n : Node} (h : n.isLeaf = false) : share n = BPTree.minKeys := by
  rw [share, h]
  rfl

theorem share_pos (n : Node) : 0 < share n := by
  rw [share]
  split <;> decide

theorem load_leaf {n : Node} (h : n.isLeaf = true) : load n = n.numKeys := if_pos h

theorem load_inner {n : Node} (h : n.isLeaf = false) : load n = 0 := by
  rw [load, h]
  rfl

structure Filled (h : Heap Node) (r : NodeId) (size : Nat) : Prop where
  share : ∀ p, p < h.size → p ≠ r → share (h.cell p) ≤ (h.cell p).numKeys
  root : (h.cell r).isLeaf = false → 0 < (h.cell r).numKeys
  size : size = ∑ p ∈ Finset.range h.size, load (h.cell p)

/-- The node is as full as before. -/
def SameFill (n m : Node) : Prop := m.isLeaf = n.isLeaf ∧ m.numKeys = n.numKeys

theorem SameFill.share {n m : Node} (h : SameFill n m) : Proofs.share m = Proofs.share n := by
  rw [Proofs.share, Proofs.share, h.1]

theorem SameFill.load {n m : Node} (h : SameFill n m) : Proofs.load m = Proofs.load n := by
  rw [Proofs.load, Proofs.load, h.1, h.2]

section Steps

variable {h h' : Heap Node} {r p x y : NodeId} {size : Nat} {key : Value} {pos : Nat}

/-- A sum over the pool, when one node changes. -/
theorem sum_load_change (hp : p < h.size)
    (hother : ∀ q, q < h.size → q ≠ p → SameFill (h.cell q) (h'.cell q)) :
    ∑ q ∈ Finset.range h.size, load (h'.cell q) + load (h.cell p)
      = ∑ q ∈ Finset.range h.size, load (h.cell q) + load (h'.cell p) := by
  have hmem : p ∈ Finset.range h.size := Finset.mem_range.mpr hp
  have hrest : ∑ q ∈ (Finset.range h.size).erase p, load (h'.cell q)
      = ∑ q ∈ (Finset.range h.size).erase p, load (h.cell q) := by
    refine Finset.sum_congr rfl fun q hq => ?_
    obtain ⟨hne, hq⟩ := Finset.mem_erase.mp hq
    exact (hother q (Finset.mem_range.mp hq) hne).load
  rw [← Finset.add_sum_erase _ _ hmem, ← Finset.add_sum_erase _ (fun q => load (h.cell q)) hmem,
    hrest]
  omega

/-- A node gets fuller. -/
theorem Filled.more (hf : Filled h r size) (hr : r < h.size) (hp : p < h.size)
    (hsize : h'.size = h.size)
    (hother : ∀ q, q < h.size → q ≠ p → SameFill (h.cell q) (h'.cell q))
    (hleaf : (h'.cell p).isLeaf = (h.cell p).isLeaf)
    (hmore : (h.cell p).numKeys ≤ (h'.cell p).numKeys) :
    Filled h' r (size + (load (h'.cell p) - load (h.cell p))) := by
  have hshare : Proofs.share (h'.cell p) = Proofs.share (h.cell p) := by
    rw [Proofs.share, Proofs.share, hleaf]
  have hload : load (h.cell p) ≤ load (h'.cell p) := by
    rw [load, load, hleaf]
    split
    · exact hmore
    · exact Nat.le_refl 0
  refine ⟨fun q hq hqr => ?_, fun hin => ?_, ?_⟩
  · rw [hsize] at hq
    have hold := hf.share q hq hqr
    by_cases hqp : q = p
    · rw [hqp] at hold ⊢
      rw [hshare]
      exact Nat.le_trans hold hmore
    · rw [(hother q hq hqp).share, (hother q hq hqp).2]
      exact hold
  · by_cases hrp : r = p
    · rw [hrp, hleaf, ← hrp] at hin
      have := hf.root hin
      rw [hrp] at this ⊢
      omega
    · rw [(hother r hr hrp).1] at hin
      rw [(hother r hr hrp).2]
      exact hf.root hin
  · have := sum_load_change hp hother
    rw [hsize, hf.size]
    omega

/-- A node gives a part of its keys to a new one. -/
theorem Filled.cut (hf : Filled h r size) (hr : r < h.size) (hp : p < h.size)
    (hsize : h'.size = h.size + 1)
    (hother : ∀ q, q < h.size → q ≠ p → SameFill (h.cell q) (h'.cell q))
    (hself : Proofs.share (h'.cell p) ≤ (h'.cell p).numKeys)
    (hnew : Proofs.share (h'.cell h.size) ≤ (h'.cell h.size).numKeys)
    (hload : load (h'.cell p) + load (h'.cell h.size) = load (h.cell p)) :
    Filled h' r size := by
  refine ⟨fun q hq hqr => ?_, fun hin => ?_, ?_⟩
  · rw [hsize] at hq
    rcases Nat.lt_succ_iff_lt_or_eq.mp hq with hq | rfl
    · by_cases hqp : q = p
      · rw [hqp]
        exact hself
      · rw [(hother q hq hqp).share, (hother q hq hqp).2]
        exact hf.share q hq hqr
    · exact hnew
  · by_cases hrp : r = p
    · rw [hrp]
      exact Nat.lt_of_lt_of_le (share_pos _) hself
    · rw [(hother r hr hrp).1] at hin
      rw [(hother r hr hrp).2]
      exact hf.root hin
  · have := sum_load_change hp hother
    rw [hsize, Finset.sum_range_succ, hf.size]
    omega

/-! ## The pools of an insertion -/

theorem load_overwritten (n : Node) (pos rowId : Nat) : load (overwritten n pos rowId) = load n :=
  rfl

theorem put_fill {n : Node} (hp : p < h.size) (hleaf : n.isLeaf = (h.cell p).isLeaf)
    (hmore : (h.cell p).numKeys ≤ n.numKeys) (hr : r < h.size) (hf : Filled h r size) :
    Filled (h.put p n) r (size + (load n - load (h.cell p))) := by
  have hself : (h.put p n).cell p = n := Heap.put_cell_self ..
  have hother : ∀ q, q < h.size → q ≠ p → SameFill (h.cell q) ((h.put p n).cell q) := by
    intro q _ hqp
    rw [Heap.put_cell_ne _ _ hqp]
    exact ⟨rfl, rfl⟩
  have hput := hf.more hr hp (Heap.put_size ..) hother (by rw [hself, hleaf])
    (by rw [hself]; exact hmore)
  rwa [hself] at hput

theorem leafHeap_fill (hp : p < h.size) (hleaf : (h.cell p).isLeaf = true)
    (hfull : (h.cell p).numKeys = bptreeOrder)
    (hself : (h.cell p).next ≠ some p) (hlink : (h.cell p).next ≠ some h.size)
    (hr : r < h.size) (hf : Filled h r size) :
    Filled (leafHeap h p) r size ∧
      Proofs.share ((leafHeap h p).cell p) ≤ ((leafHeap h p).cell p).numKeys := by
  have hord : bptreeOrder = 256 := rfl
  obtain ⟨hlow, hlowKeys⟩ : ((leafHeap h p).cell p).isLeaf = true ∧
      ((leafHeap h p).cell p).numKeys = bptreeOrder / 2 := by
    rw [leafHeap_self hp hself, ← hfull]
    exact ⟨hleaf, rfl⟩
  obtain ⟨hup, hupKeys⟩ : ((leafHeap h p).cell h.size).isLeaf = true ∧
      ((leafHeap h p).cell h.size).numKeys = bptreeOrder - bptreeOrder / 2 := by
    rw [leafHeap_new hp hlink, ← hfull]
    exact ⟨rfl, rfl⟩
  have hshare : Proofs.share ((leafHeap h p).cell p) ≤ ((leafHeap h p).cell p).numKeys := by
    rw [share_leaf hlow, hlowKeys]
  refine ⟨hf.cut hr hp leafHeap_size (fun q hq hqp => ?_) hshare ?_ ?_, hshare⟩
  · obtain ⟨b, hb⟩ := leafHeap_links hq hqp
    rw [hb]
    exact ⟨rfl, rfl⟩
  · rw [share_leaf hup, hupKeys]
    omega
  · rw [load_leaf hlow, load_leaf hup, load_leaf hleaf, hlowKeys, hupKeys, hfull]
    omega

theorem growHeap_fill (hp : p < h.size) (hpy : y ≠ p) (hin : (h.cell p).isLeaf = false)
    (hr : r < h.size) (hf : Filled h r size) : Filled (growHeap h p pos key y) r size := by
  have hself : (growHeap h p pos key y).cell p = grown (h.cell p) pos key y := growHeap_self
  have hother : ∀ q, q < h.size → q ≠ p →
      SameFill (h.cell q) ((growHeap h p pos key y).cell q) := by
    intro q _ hqp
    by_cases hqy : q = y
    · rw [hqy, growHeap_new hpy]
      exact ⟨rfl, rfl⟩
    · rw [growHeap_other hqp hqy]
      exact ⟨rfl, rfl⟩
  have hmore := hf.more hr hp growHeap_size hother (by rw [hself]; rfl)
    (by rw [hself]; exact Nat.le_succ _)
  rwa [hself, load_inner (n := grown (h.cell p) pos key y) hin, Nat.zero_sub] at hmore

theorem splitHeap_fill (hp : p < h.size) (hin : (h.cell p).isLeaf = false)
    (hfull : (h.cell p).numKeys = bptreeOrder) (hm : p ∉ movedKids (h.cell p))
    (hr : r < h.size) (hf : Filled h r size) :
    Filled (splitHeap h p) r size ∧
      Proofs.share ((splitHeap h p).cell p) ≤ ((splitHeap h p).cell p).numKeys := by
  obtain ⟨hlow, hlowKeys⟩ : ((splitHeap h p).cell p).isLeaf = false ∧
      ((splitHeap h p).cell p).numKeys = bptreeOrder / 2 := by
    rw [splitHeap_self hp hm, ← hfull]
    exact ⟨hin, rfl⟩
  obtain ⟨hup, hupKeys⟩ : ((splitHeap h p).cell h.size).isLeaf = false ∧
      ((splitHeap h p).cell h.size).numKeys = bptreeOrder - bptreeOrder / 2 - 1 := by
    rw [splitHeap_new, ← hfull]
    exact ⟨rfl, rfl⟩
  have hshare : Proofs.share ((splitHeap h p).cell p) ≤ ((splitHeap h p).cell p).numKeys := by
    rw [share_inner hlow, hlowKeys]
    decide
  refine ⟨hf.cut hr hp splitHeap_size (fun q hq hqp => ?_) hshare ?_ ?_, hshare⟩
  · by_cases hq' : q ∈ movedKids (h.cell p)
    · rw [splitHeap_moved hq hqp hq']
      exact ⟨rfl, rfl⟩
    · rw [splitHeap_other hq hqp hq']
      exact ⟨rfl, rfl⟩
  · rw [share_inner hup, hupKeys]
    decide
  · rw [load_inner hlow, load_inner hup, load_inner hin]

/-- The old root has its share when it is a node like the others. -/
theorem rootHeap_fill (hr : r < h.size) (hy : y < h.size)
    (hshare : Proofs.share (h.cell r) ≤ (h.cell r).numKeys) (hf : Filled h r size) :
    Filled (rootHeap h r key y) h.size size := by
  have hroot : (rootHeap h r key y).cell h.size = rootNode r key y := rootHeap_root hr hy
  have hsame : ∀ q, q < h.size → SameFill (h.cell q) ((rootHeap h r key y).cell q) := by
    intro q hq
    by_cases hq' : q = r ∨ q = y
    · rw [rootHeap_kid hr hy hq']
      exact ⟨rfl, rfl⟩
    · rw [not_or] at hq'
      rw [rootHeap_other hq hq'.1 hq'.2]
      exact ⟨rfl, rfl⟩
  refine ⟨fun q hq hne => ?_, fun _ => ?_, ?_⟩
  · have hq' : q < h.size := Nat.lt_of_le_of_ne (Nat.le_of_lt_succ hq) hne
    rw [(hsame q hq').share, (hsame q hq').2]
    by_cases hqr : q = r
    · rw [hqr]
      exact hshare
    · exact hf.share q hq' hqr
  · rw [hroot]
    exact Nat.one_pos
  · rw [rootHeap_size, Finset.sum_range_succ, hroot, hf.size]
    refine (Finset.sum_congr rfl fun q hq => ?_).symm
    exact (hsame q (Finset.mem_range.mp hq)).load

end Steps

end FlexQL.Proofs
