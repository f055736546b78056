import FlexQL.Proofs.BPTreeTotal
import FlexQL.Spec.BPTree
import Mathlib.Algebra.Order.BigOperators.Group.Finset

/-!
# The balance of the tree

`Shape` gives every node a height and `Filled` a least number of keys. The
children of different nodes are different, so a level has at least as many
times more nodes than the one above as a node has children; from the root down
that is two nodes and then 128 for each, and every leaf has 128 keys.
-/

namespace FlexQL.Proofs

open Lib FlexQL.Ref FlexQL.Spec

section Levels

variable {h : Heap Node} {r p : NodeId} {ht : NodeId → Nat} {size : Nat}

/-- The nodes of a height. -/
def level (h : Heap Node) (ht : NodeId → Nat) (d : Nat) : Finset NodeId :=
  (Finset.range h.size).filter fun p => ht p = d

theorem mem_level {d : Nat} : p ∈ level h ht d ↔ p < h.size ∧ ht p = d := by
  rw [level, Finset.mem_filter, Finset.mem_range]

/-- The children of a node. -/
def kids (n : Node) : Finset NodeId := (Finset.range (n.numKeys + 1)).image (childId n)

theorem Shape.childId_spec (hs : Shape h r ht none none) (hp : p < h.size) (h0 : 0 < ht p)
    {i : Nat} (hi : i ≤ (h.cell p).numKeys) :
    (h.cell p).children i = some (childId (h.cell p) i) ∧ childId (h.cell p) i < h.size ∧
      ht (childId (h.cell p) i) + 1 = ht p ∧
      (h.cell (childId (h.cell p) i)).parent = some p := by
  obtain ⟨c, hc, hrest⟩ := hs.kid p hp h0 i hi
  have hid : childId (h.cell p) i = c := by rw [childId, hc]; rfl
  rw [hid]
  exact ⟨hc, hrest⟩

theorem Shape.card_kids (hs : Shape h r ht none none) (hp : p < h.size) (h0 : 0 < ht p) :
    (kids (h.cell p)).card = (h.cell p).numKeys + 1 := by
  rw [kids, Finset.card_image_of_injOn, Finset.card_range]
  intro i hi j hj hij
  rw [Finset.mem_coe, Finset.mem_range] at hi hj
  refine hs.distinct p hp h0 i j (by omega) (by omega) ?_
  rw [(hs.childId_spec hp h0 (by omega)).1, (hs.childId_spec hp h0 (by omega)).1, hij]

/-- Nodes with `n` children each have `n` times as many nodes below them. -/
theorem Shape.card_level (hs : Shape h r ht none none) {d n : Nat}
    (hn : ∀ p ∈ level h ht (d + 1), n ≤ (h.cell p).numKeys + 1) :
    (level h ht (d + 1)).card * n ≤ (level h ht d).card := by
  have hmem : ∀ p ∈ level h ht (d + 1), p < h.size ∧ 0 < ht p := fun p hp => by
    obtain ⟨hlt, hd⟩ := mem_level.mp hp
    exact ⟨hlt, by omega⟩
  have hdisj : ∀ p ∈ level h ht (d + 1), ∀ q ∈ level h ht (d + 1), p ≠ q →
      Disjoint (kids (h.cell p)) (kids (h.cell q)) := by
    intro p hp q hq hne
    rw [Finset.disjoint_left]
    intro c hcp hcq
    obtain ⟨i, hi, rfl⟩ := Finset.mem_image.mp hcp
    obtain ⟨j, hj, hij⟩ := Finset.mem_image.mp hcq
    rw [Finset.mem_range] at hi hj
    -- a node has one parent
    have hpar := (hs.childId_spec (hmem p hp).1 (hmem p hp).2 (Nat.le_of_lt_succ hi)).2.2.2
    have hpar' := (hs.childId_spec (hmem q hq).1 (hmem q hq).2 (Nat.le_of_lt_succ hj)).2.2.2
    rw [hij, hpar] at hpar'
    exact hne (Option.some.inj hpar')
  have hsub : (level h ht (d + 1)).biUnion (fun p => kids (h.cell p)) ⊆ level h ht d := by
    intro c hc
    obtain ⟨p, hp, hcp⟩ := Finset.mem_biUnion.mp hc
    obtain ⟨i, hi, rfl⟩ := Finset.mem_image.mp hcp
    have hspec := hs.childId_spec (hmem p hp).1 (hmem p hp).2
      (Nat.le_of_lt_succ (Finset.mem_range.mp hi))
    rw [mem_level] at hp ⊢
    exact ⟨hspec.2.1, by omega⟩
  calc (level h ht (d + 1)).card * n
      ≤ ∑ p ∈ level h ht (d + 1), (kids (h.cell p)).card := by
        refine Finset.card_nsmul_le_sum _ _ _ fun p hp => ?_
        rw [hs.card_kids (hmem p hp).1 (hmem p hp).2]
        exact hn p hp
    _ = ((level h ht (d + 1)).biUnion fun p => kids (h.cell p)).card :=
        (Finset.card_biUnion hdisj).symm
    _ ≤ (level h ht d).card := Finset.card_le_card hsub

/-- Only the root is as tall as the root. -/
theorem Shape.lt_root (hs : Shape h r ht none none) (hp : p < h.size) (hne : p ≠ r) :
    ht p < ht r := by
  obtain ⟨q, hq, -, h0, i, hi, hc⟩ := hs.parent p hp hne (by simp)
  have := (hs.kid_of_child hq h0 hi hc).2.1
  have := hs.top q hq
  omega

theorem Shape.card_below_root (hs : Shape h r ht none none) (hf : Filled h r size) :
    ∀ j d, d + j + 1 = ht r → 2 * 128 ^ j ≤ (level h ht d).card := by
  intro j
  induction j with
  | zero =>
      intro d hd
      have hroot : (level h ht (d + 1)).card = 1 := by
        rw [Finset.card_eq_one]
        refine ⟨r, Finset.ext fun p => ?_⟩
        rw [mem_level, Finset.mem_singleton]
        refine ⟨fun hp => ?_, fun hp => by rw [hp]; exact ⟨hs.root, by omega⟩⟩
        by_contra hne
        have := hs.lt_root hp.1 hne
        omega
      have hkids : ∀ p ∈ level h ht (d + 1), 2 ≤ (h.cell p).numKeys + 1 := by
        intro p hp
        obtain ⟨hlt, hd'⟩ := mem_level.mp hp
        have hpr : p = r := by
          by_contra hne
          have := hs.lt_root hlt hne
          omega
        have := hf.root (hs.inner hs.root (by omega))
        rw [hpr]
        omega
      have := hs.card_level hkids
      rw [hroot] at this
      omega
  | succ j ih =>
      intro d hd
      have hkids : ∀ p ∈ level h ht (d + 1), 128 ≤ (h.cell p).numKeys + 1 := by
        intro p hp
        obtain ⟨hlt, hd'⟩ := mem_level.mp hp
        have hshare := hf.share p hlt fun he => by rw [he] at hd'; omega
        rw [share_inner (hs.inner hlt (by omega))] at hshare
        have : BPTree.minKeys = 127 := rfl
        omega
      calc 2 * 128 ^ (j + 1) = 2 * 128 ^ j * 128 := by rw [Nat.pow_succ, Nat.mul_assoc]
        _ ≤ (level h ht (d + 1)).card * 128 := Nat.mul_le_mul_right _ (ih (d + 1) (by omega))
        _ ≤ (level h ht d).card := hs.card_level hkids

/-- A tree with internal nodes has many leaves, and they are half full. -/
theorem Shape.size_bound (hs : Shape h r ht none none) (hf : Filled h r size) (h0 : 0 < ht r) :
    2 * 128 ^ ht r ≤ size := by
  have hleaves := hs.card_below_root hf (ht r - 1) 0 (by omega)
  have hshare : ∀ p ∈ level h ht 0, 128 ≤ load (h.cell p) := by
    intro p hp
    obtain ⟨hlt, hd⟩ := mem_level.mp hp
    have hleaf : (h.cell p).isLeaf = true := by
      rw [hs.isLeaf p hlt]
      exact decide_eq_true hd
    have hle := hf.share p hlt fun he => by rw [he] at hd; omega
    rwa [share_leaf hleaf, ← load_leaf hleaf] at hle
  calc 2 * 128 ^ ht r = 2 * 128 ^ (ht r - 1) * 128 := by
        rw [Nat.mul_assoc, ← Nat.pow_succ, Nat.succ_eq_add_one, Nat.sub_add_cancel h0]
    _ ≤ (level h ht 0).card * 128 := Nat.mul_le_mul_right _ hleaves
    _ ≤ ∑ p ∈ level h ht 0, load (h.cell p) := Finset.card_nsmul_le_sum _ _ _ hshare
    _ ≤ ∑ p ∈ Finset.range h.size, load (h.cell p) :=
        Finset.sum_le_sum_of_subset (Finset.filter_subset _ _)
    _ = size := hf.size.symm

/-- A node on level `d` is `d` levels below the top. -/
theorem Shape.atDepth (hs : Shape h r ht none none) {d : Nat} (hd : AtDepth h r d p) :
    p < h.size ∧ d + ht p = ht r + 1 := by
  induction hd with
  | root => exact ⟨hs.root, Nat.add_comm _ _⟩
  | @child d p c i _ hin hi hc ih =>
      have h0 : 0 < ht p := by
        rw [hs.isLeaf p ih.1] at hin
        exact Nat.pos_of_ne_zero (of_decide_eq_false hin)
      obtain ⟨hlt, hht, -⟩ := hs.kid_of_child ih.1 h0 hi hc
      exact ⟨hlt, by omega⟩

end Levels

/-- The tree is balanced after every history of insertions, whatever the keys
are. -/
theorem insertAll_balanced (ty : DataType) (ops : List (Value × Nat)) :
    ∃ t r, (BPTree.new ty).insertAll ops = .ok t ∧ Balanced t r := by
  obtain ⟨t, r, ht, l, hrun, hroot, hs, hheight, -, hf⟩ := insertAll_scannable ty ops
  have hord : bptreeOrder = 256 := rfl
  have hinner : ∀ d p, AtDepth t.pool r d p → (t.pool.cell p).isLeaf = false → 0 < ht p := by
    intro d p hd hin
    rw [hs.isLeaf p (hs.atDepth hd).1] at hin
    exact Nat.pos_of_ne_zero (of_decide_eq_false hin)
  refine ⟨t, r, hrun, hroot, fun d p hd hleaf => ?_, fun d p hd hne => ⟨?_, ?_⟩, hf.root,
    fun d p hd hin => ⟨fun i hi => ?_, ?_⟩, fun n hn h2 => ?_⟩
  · obtain ⟨hp, hdepth⟩ := hs.atDepth hd
    rw [hs.isLeaf p hp] at hleaf
    have := of_decide_eq_true hleaf
    omega
  · have hshare := hf.share p (hs.atDepth hd).1 hne
    have hleast : BPTree.minKeys ≤ share (t.pool.cell p) := by
      rw [share]
      split <;> decide
    exact Nat.le_trans hleast hshare
  · have := hs.cap p (hs.atDepth hd).1 (by simp)
    omega
  · obtain ⟨c, hc, -⟩ := hs.kid p (hs.atDepth hd).1 (hinner d p hd hin) i hi
    rw [hc]
    exact Option.some_ne_none c
  · exact hs.distinct p (hs.atDepth hd).1 (hinner d p hd hin)
  · have hr : ht r = n - 1 := by omega
    rw [← hr]
    exact hs.size_bound hf (by omega)

end FlexQL.Proofs
