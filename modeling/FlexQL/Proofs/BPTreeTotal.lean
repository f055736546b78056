import FlexQL.Proofs.BPTreeFill
import FlexQL.Spec.BPTree

/-!
# Insertion returns, whatever the keys

The comparisons of the keys decide where an entry goes, and a key that is not
comparable, such as a NaN, can send it anywhere. What makes the insertion
return is the shape of the tree alone: every node has a height, the children
of a node are one lower and name it as their parent, and every node but the
root is the child of its parent. `Shape` says so of a pool of nodes, without
a word about the order. A split breaks it in one place: there is a node that
nobody holds yet, or one that is too full.
-/

namespace FlexQL.Proofs

open Lib FlexQL.Ref FlexQL.Spec

/-- The pool is a tree under `r`, but for an orphan and a node that may be
full. -/
structure Shape (h : Heap Node) (r : NodeId) (ht : NodeId → Nat)
    (orphan full : Option NodeId) : Prop where
  root : r < h.size
  top : ∀ p, p < h.size → ht p ≤ ht r
  tall : ht r < h.size
  isLeaf : ∀ p, p < h.size → (h.cell p).isLeaf = decide (ht p = 0)
  next : ∀ p, p < h.size → ∀ q, (h.cell p).next = some q → q < h.size ∧ q ≠ p
  cap : ∀ p, p < h.size → full ≠ some p → (h.cell p).numKeys < bptreeOrder
  kid : ∀ p, p < h.size → 0 < ht p → ∀ i, i ≤ (h.cell p).numKeys →
    ∃ c, (h.cell p).children i = some c ∧ c < h.size ∧ ht c + 1 = ht p ∧
      (h.cell c).parent = some p
  distinct : ∀ p, p < h.size → 0 < ht p → ∀ i j, i ≤ (h.cell p).numKeys →
    j ≤ (h.cell p).numKeys → (h.cell p).children i = (h.cell p).children j → i = j
  parent : ∀ p, p < h.size → p ≠ r → orphan ≠ some p →
    ∃ q, q < h.size ∧ (h.cell p).parent = some q ∧ 0 < ht q ∧
      ∃ i, i ≤ (h.cell q).numKeys ∧ (h.cell q).children i = some p
  alone : ∀ y, orphan = some y → y < h.size ∧ y ≠ r ∧ (h.cell y).parent = none

theorem shape_new : Shape (Heap.empty.alloc (Node.new true)).1 0 (fun _ => 0) none none := by
  have hcell : ∀ p, p < (Heap.empty.alloc (Node.new true)).1.size →
      (Heap.empty.alloc (Node.new true)).1.cell p = Node.new true := by
    intro p hp
    obtain rfl : p = 0 := by
      have : p < 0 + 1 := hp
      omega
    rfl
  refine ⟨Nat.one_pos, fun _ _ => Nat.le_refl 0, Nat.one_pos, fun p hp => ?_, fun p hp q hq => ?_,
    fun p hp _ => ?_, fun _ _ h => absurd h (Nat.lt_irrefl 0),
    fun _ _ h => absurd h (Nat.lt_irrefl 0), fun p hp hr => ?_, fun _ h => absurd h (by simp)⟩
  · rw [hcell p hp]
    rfl
  · rw [hcell p hp] at hq
    exact absurd hq (by simp [Node.new])
  · rw [hcell p hp]
    decide
  · have : p < 0 + 1 := hp
    omega

/-- The leaves are on one chain from the first on. -/
structure Chained (h : Heap Node) (ht : NodeId → Nat) (first : Option NodeId)
    (l : List NodeId) : Prop where
  linked : Linked h none l
  first : first = l.head?
  nodup : l.Nodup
  mem : ∀ p, p ∈ l ↔ p < h.size ∧ ht p = 0

/-- A climb adds inner nodes and leaves the chain alone. -/
structure Climbed (t t' : BPTree) (ht ht' : NodeId → Nat) : Prop where
  size : t.pool.size ≤ t'.pool.size
  height : ∀ q, q < t.pool.size → ht' q = ht q
  inner : ∀ q, t.pool.size ≤ q → q < t'.pool.size → 0 < ht' q
  links : ∀ q, q < t.pool.size → (t'.pool.cell q).prev = (t.pool.cell q).prev ∧
    (t'.pool.cell q).next = (t.pool.cell q).next
  leftmost : t'.leftmostLeaf = t.leftmostLeaf

theorem Climbed.trans {t₁ t₂ t₃ : BPTree} {ht₁ ht₂ ht₃ : NodeId → Nat}
    (h : Climbed t₁ t₂ ht₁ ht₂) (h' : Climbed t₂ t₃ ht₂ ht₃) : Climbed t₁ t₃ ht₁ ht₃ := by
  have hlt : ∀ q, q < t₁.pool.size → q < t₂.pool.size := fun q hq => Nat.lt_of_lt_of_le hq h.size
  refine ⟨Nat.le_trans h.size h'.size, fun q hq => ?_, fun q hge hq => ?_, fun q hq => ?_,
    h'.leftmost.trans h.leftmost⟩
  · rw [h'.height q (hlt q hq), h.height q hq]
  · by_cases hq' : q < t₂.pool.size
    · rw [h'.height q hq']
      exact h.inner q hge hq'
    · exact h'.inner q (Nat.le_of_not_lt hq') hq
  · rw [(h'.links q (hlt q hq)).1, (h'.links q (hlt q hq)).2]
    exact h.links q hq

theorem Chained.climb {t t' : BPTree} {ht ht' : NodeId → Nat} {l : List NodeId}
    (h : Chained t.pool ht t.leftmostLeaf l) (hc : Climbed t t' ht ht') :
    Chained t'.pool ht' t'.leftmostLeaf l := by
  refine ⟨h.linked.congr fun q hq => hc.links q ((h.mem q).mp hq).1,
    hc.leftmost.trans h.first, h.nodup, fun p => ?_⟩
  rw [h.mem]
  constructor
  · rintro ⟨hp, h0⟩
    exact ⟨Nat.lt_of_lt_of_le hp hc.size, (hc.height p hp).trans h0⟩
  · rintro ⟨hp, h0⟩
    by_cases hold : p < t.pool.size
    · exact ⟨hold, (hc.height p hold).symm.trans h0⟩
    · have := hc.inner p (Nat.le_of_not_lt hold) hp
      omega

section Search

variable {h : Heap Node} {r p : NodeId} {ht : NodeId → Nat} {orphan full : Option NodeId}
  {key : Value} {n : Node}

theorem lowerBoundLoop_le (hcap : n.numKeys ≤ bptreeOrder) : ∀ lo hi, lo ≤ hi → hi ≤ n.numKeys →
    ∃ pos, BPTree.lowerBoundLoop n key lo hi = .ok pos ∧ pos ≤ n.numKeys := by
  intro lo hi
  induction hd : hi - lo using Nat.strong_induction_on generalizing lo hi with
  | _ d ih =>
      intro hle hhi
      rw [BPTree.lowerBoundLoop]
      split
      · next hlt =>
          rw [Outcome.bind_of_ok (Node.key_of_lt (by omega))]
          split
          · exact ih (hi - ((lo + hi) / 2 + 1)) (by omega) _ _ rfl (by omega) hhi
          · exact ih ((lo + hi) / 2 - lo) (by omega) _ _ rfl (by omega) (by omega)
      · exact ⟨lo, rfl, Nat.le_trans hle hhi⟩

theorem lowerBound_le (hcap : n.numKeys ≤ bptreeOrder) (key : Value) :
    ∃ pos, BPTree.lowerBound n key = .ok pos ∧ pos ≤ n.numKeys :=
  lowerBoundLoop_le hcap 0 n.numKeys (Nat.zero_le _) (Nat.le_refl _)

/-- The descent takes one step for each level. -/
theorem Shape.findLeafLoop (hs : Shape h r ht orphan none) : ∀ (fuel : Nat) (p : NodeId),
    p < h.size → ht p < fuel →
    ∃ q, BPTree.findLeafLoop h key fuel (some p) = .ok (some q) ∧ q < h.size ∧ ht q = 0 := by
  intro fuel
  induction fuel with
  | zero => exact fun p _ hf => absurd hf (Nat.not_lt_zero _)
  | succ fuel ih =>
      intro p hp hf
      rw [BPTree.findLeafLoop, Outcome.bind_of_ok (Heap.get_of_lt hp)]
      have hleaf := hs.isLeaf p hp
      by_cases h0 : ht p = 0
      · rw [hleaf, if_pos (by simpa using h0)]
        exact ⟨p, rfl, hp, h0⟩
      · rw [hleaf, if_neg (by simpa using h0)]
        have hcap := hs.cap p hp (by simp)
        obtain ⟨idx, hidx, hle⟩ := lowerBound_le (Nat.le_of_lt hcap) key
        have hgo : ∀ i, i ≤ (h.cell p).numKeys → ∃ q,
            ((h.cell p).child i >>= fun c => BPTree.findLeafLoop h key fuel c) =
              .ok (some q) ∧ q < h.size ∧ ht q = 0 := by
          intro i hi
          obtain ⟨c, hc, hlt, hht, -⟩ := hs.kid p hp (Nat.pos_of_ne_zero h0) i hi
          rw [Outcome.bind_of_ok (Node.child_of_le (by omega)), hc]
          exact ih c hlt (by omega)
        rw [hidx, Outcome.bind_ok]
        split
        · exact hgo idx hle
        · next hne =>
            rw [Outcome.bind_of_ok (Node.key_of_lt (by omega))]
            split
            · exact hgo (idx + 1) (by omega)
            · exact hgo idx hle

end Search

section Steps

variable {h : Heap Node} {r p x y : NodeId} {ht : NodeId → Nat} {orphan full : Option NodeId}
  {key : Value} {pos : Nat}

/-- An inner node is as tall as its children say. -/
theorem Shape.kid_of_child (hs : Shape h r ht orphan full) (hp : p < h.size) (h0 : 0 < ht p)
    {i : Nat} (hi : i ≤ (h.cell p).numKeys) {c : NodeId}
    (hc : (h.cell p).children i = some c) :
    c < h.size ∧ ht c + 1 = ht p ∧ (h.cell c).parent = some p := by
  obtain ⟨c', hc', hrest⟩ := hs.kid p hp h0 i hi
  obtain rfl := Option.some.inj (hc'.symm.trans hc)
  exact hrest

theorem Shape.inner (hs : Shape h r ht orphan full) (hp : p < h.size) (h0 : 0 < ht p) :
    (h.cell p).isLeaf = false := by
  rw [hs.isLeaf p hp]
  exact decide_eq_false (Nat.ne_of_gt h0)

/-- Changing a leaf's entries changes nothing about the shape. -/
theorem Shape.put (hs : Shape h r ht none none) (hp : p < h.size) (h0 : ht p = 0) {n : Node}
    (hleaf : n.isLeaf = (h.cell p).isLeaf) (hnext : n.next = (h.cell p).next)
    (hpar : n.parent = (h.cell p).parent) : Shape (h.put p n) r ht none (some p) := by
  have hparent : ∀ q, ((h.put p n).cell q).parent = (h.cell q).parent := by
    intro q
    rw [Heap.put_cell]
    split
    · next hq => rw [hq, hpar]
    · rfl
  have hinner : ∀ q, 0 < ht q → (h.put p n).cell q = h.cell q := by
    intro q hq
    exact Heap.put_cell_ne _ _ fun he => by rw [he, h0] at hq; exact Nat.lt_irrefl 0 hq
  refine ⟨hs.root, hs.top, hs.tall, fun q hq => ?_, fun q hq z hz => ?_, fun q hq hne => ?_,
    fun q hq hq0 i hi => ?_, fun q hq hq0 => ?_, fun q hq hr ho => ?_,
    fun _ hy => absurd hy (by simp)⟩
  · rw [Heap.put_cell]
    split
    · next he => rw [he, hleaf]; exact hs.isLeaf p hp
    · exact hs.isLeaf q hq
  · rw [Heap.put_cell] at hz
    split at hz
    · next he => rw [hnext] at hz; rw [he]; exact hs.next p hp z hz
    · exact hs.next q hq z hz
  · rw [Heap.put_cell_ne _ _ fun he => hne (by rw [he])]
    exact hs.cap q hq (by simp)
  · rw [hinner q hq0] at hi ⊢
    obtain ⟨c, hc, hlt, hht, hcp⟩ := hs.kid q hq hq0 i hi
    exact ⟨c, hc, hlt, hht, (hparent c).trans hcp⟩
  · rw [hinner q hq0]
    exact hs.distinct q hq hq0
  · obtain ⟨z, hz, hpz, hz0, i, hi, hc⟩ := hs.parent q hq hr ho
    exact ⟨z, hz, (hparent q).trans hpz, hz0, i, by rw [hinner z hz0]; exact ⟨hi, hc⟩⟩

theorem Shape.relax (hs : Shape h r ht orphan (some p))
    (hroom : (h.cell p).numKeys < bptreeOrder) : Shape h r ht orphan none := by
  refine ⟨hs.root, hs.top, hs.tall, hs.isLeaf, hs.next, fun q hq _ => ?_, hs.kid, hs.distinct,
    hs.parent, hs.alone⟩
  by_cases he : q = p
  · rw [he]
    exact hroom
  · exact hs.cap q hq fun h => he (Option.some.inj h).symm

/-- A full leaf gives half of its entries to a new one. -/
theorem Shape.cutLeaf (hs : Shape h r ht none (some p)) (hp : p < h.size) (h0 : ht p = 0)
    (hfull : (h.cell p).numKeys = bptreeOrder) {ht' : NodeId → Nat}
    (hold : ∀ q, q < h.size → ht' q = ht q) (hnew : ht' h.size = 0) :
    Shape (leafHeap h p) r ht' (some h.size) none := by
  have hord : bptreeOrder = 256 := rfl
  have hself := leafHeap_self hp fun hn => (hs.next p hp p hn).2 rfl
  have hfresh := leafHeap_new hp fun hn => absurd (hs.next p hp _ hn).1 (Nat.lt_irrefl _)
  have hcases : ∀ {q}, q < (leafHeap h p).size → q < h.size ∨ q = h.size := by
    intro q hq
    rw [leafHeap_size] at hq
    omega
  have hparent : ∀ q, q < h.size → ((leafHeap h p).cell q).parent = (h.cell q).parent := by
    intro q hq
    by_cases hqp : q = p
    · rw [hqp, hself]
    · obtain ⟨b, hb⟩ := leafHeap_links hq hqp
      rw [hb]
  have hinner : ∀ q, q < h.size → 0 < ht q →
      ((leafHeap h p).cell q).numKeys = (h.cell q).numKeys ∧
        ((leafHeap h p).cell q).children = (h.cell q).children := by
    intro q hq hq0
    obtain ⟨b, hb⟩ := leafHeap_links hq fun he => by rw [he, h0] at hq0; exact Nat.lt_irrefl 0 hq0
    rw [hb]
    exact ⟨rfl, rfl⟩
  have hr := hs.root
  refine ⟨?_, fun q hq => ?_, ?_, fun q hq => ?_, fun q hq z hz => ?_, fun q hq _ => ?_,
    fun q hq hq0 i hi => ?_, fun q hq hq0 i j hi hj hij => ?_, fun q hq hqr ho => ?_,
    fun y hy => ?_⟩
  · rw [leafHeap_size]
    exact Nat.lt_succ_of_lt hr
  · rw [hold r hr]
    rcases hcases hq with hq | rfl
    · rw [hold q hq]
      exact hs.top q hq
    · omega
  · rw [leafHeap_size, hold r hr]
    exact Nat.lt_succ_of_lt hs.tall
  · rcases hcases hq with hq | rfl
    · rw [hold q hq, ← hs.isLeaf q hq]
      by_cases hqp : q = p
      · rw [hqp, hself]
      · obtain ⟨b, hb⟩ := leafHeap_links hq hqp
        rw [hb]
    · rw [hfresh, hnew]
      rfl
  · rw [leafHeap_size]
    rcases hcases hq with hq | rfl
    · by_cases hqp : q = p
      · rw [hqp, hself] at hz
        obtain rfl := Option.some.inj hz
        exact ⟨Nat.lt_succ_self _, Nat.ne_of_gt hq⟩
      · obtain ⟨b, hb⟩ := leafHeap_links hq hqp
        rw [hb] at hz
        obtain ⟨hlt, hne⟩ := hs.next q hq z hz
        exact ⟨Nat.lt_succ_of_lt hlt, hne⟩
    · rw [hfresh] at hz
      obtain ⟨hlt, -⟩ := hs.next p hp z hz
      exact ⟨Nat.lt_succ_of_lt hlt, Nat.ne_of_lt hlt⟩
  · rcases hcases hq with hq | rfl
    · by_cases hqp : q = p
      · rw [hqp, hself]
        change (h.cell p).numKeys / 2 < _
        omega
      · obtain ⟨b, hb⟩ := leafHeap_links hq hqp
        rw [hb]
        exact hs.cap q hq fun he => hqp (Option.some.inj he).symm
    · rw [hfresh]
      change (h.cell p).numKeys - (h.cell p).numKeys / 2 < _
      omega
  · rcases hcases hq with hq | rfl
    · rw [hold q hq] at hq0
      obtain ⟨hk, hc⟩ := hinner q hq hq0
      rw [hk] at hi
      obtain ⟨c, hci, hlt, hht, hcp⟩ := hs.kid q hq hq0 i hi
      refine ⟨c, by rw [hc, hci], by rw [leafHeap_size]; exact Nat.lt_succ_of_lt hlt, ?_,
        (hparent c hlt).trans hcp⟩
      rw [hold c hlt, hold q hq, hht]
    · omega
  · rcases hcases hq with hq | rfl
    · rw [hold q hq] at hq0
      obtain ⟨hk, hc⟩ := hinner q hq hq0
      rw [hk] at hi hj
      rw [hc] at hij
      exact hs.distinct q hq hq0 i j hi hj hij
    · omega
  · rcases hcases hq with hq | rfl
    · obtain ⟨z, hz, hpz, hz0, i, hi, hc⟩ := hs.parent q hq hqr (by simp)
      obtain ⟨hk, hch⟩ := hinner z hz hz0
      refine ⟨z, by rw [leafHeap_size]; exact Nat.lt_succ_of_lt hz, (hparent q hq).trans hpz, ?_,
        i, ?_, ?_⟩
      · rw [hold z hz]
        exact hz0
      · rw [hk]
        exact hi
      · rw [hch, hc]
    · exact absurd rfl ho
  · obtain rfl := Option.some.inj hy
    refine ⟨by rw [leafHeap_size]; exact Nat.lt_succ_self _, Nat.ne_of_gt hr, ?_⟩
    rw [hfresh]
    rfl

/-- A new root over the two halves of the old one. -/
theorem Shape.newRoot (hs : Shape h r ht (some y) none) (hy : ht y = ht r)
    {ht' : NodeId → Nat} (hold : ∀ q, q < h.size → ht' q = ht q)
    (hnew : ht' h.size = ht r + 1) :
    Shape (rootHeap h r key y) h.size ht' none none := by
  have hord : bptreeOrder = 256 := rfl
  have hr := hs.root
  obtain ⟨hylt, hyr, hyp⟩ := hs.alone y rfl
  have hcases : ∀ {q}, q < (rootHeap h r key y).size → q < h.size ∨ q = h.size := by
    intro q hq
    rw [rootHeap_size] at hq
    omega
  have hroot : (rootHeap h r key y).cell h.size = rootNode r key y := rootHeap_root hr hylt
  -- every old node keeps all but its parent
  have hcell : ∀ q, q < h.size →
      ∃ b, (rootHeap h r key y).cell q = { h.cell q with parent := b } := by
    intro q hq
    by_cases hq' : q = r ∨ q = y
    · exact ⟨_, rootHeap_kid hr hylt hq'⟩
    · rw [not_or] at hq'
      exact ⟨_, rootHeap_other hq hq'.1 hq'.2⟩
  have hparent : ∀ q, q < h.size → q ≠ r → q ≠ y →
      (rootHeap h r key y).cell q = h.cell q := fun q hq h₁ h₂ => rootHeap_other hq h₁ h₂
  refine ⟨?_, fun q hq => ?_, ?_, fun q hq => ?_, fun q hq z hz => ?_, fun q hq _ => ?_,
    fun q hq hq0 i hi => ?_, fun q hq hq0 i j hi hj hij => ?_, fun q hq hqr _ => ?_,
    fun _ hy => absurd hy (by simp)⟩
  · rw [rootHeap_size]
    exact Nat.lt_succ_self _
  · rw [hnew]
    rcases hcases hq with hq | rfl
    · rw [hold q hq]
      exact Nat.le_succ_of_le (hs.top q hq)
    · rw [hnew]
  · rw [rootHeap_size, hnew]
    exact Nat.succ_lt_succ hs.tall
  · rcases hcases hq with hq | rfl
    · obtain ⟨b, hb⟩ := hcell q hq
      rw [hb, hold q hq]
      exact hs.isLeaf q hq
    · rw [hroot, hnew]
      rfl
  · rcases hcases hq with hq | rfl
    · obtain ⟨b, hb⟩ := hcell q hq
      rw [hb] at hz
      obtain ⟨hlt, hne⟩ := hs.next q hq z hz
      exact ⟨Nat.lt_succ_of_lt hlt, hne⟩
    · rw [hroot] at hz
      exact absurd hz (by simp [rootNode, Node.new])
  · rcases hcases hq with hq | rfl
    · obtain ⟨b, hb⟩ := hcell q hq
      rw [hb]
      exact hs.cap q hq (by simp)
    · rw [hroot]
      change 1 < _
      omega
  · rcases hcases hq with hq | rfl
    · rw [hold q hq] at hq0
      obtain ⟨b, hb⟩ := hcell q hq
      rw [hb] at hi ⊢
      obtain ⟨c, hc, hlt, hht, hcp⟩ := hs.kid q hq hq0 i hi
      refine ⟨c, hc, Nat.lt_succ_of_lt hlt, by rw [hold c hlt, hold q hq, hht], ?_⟩
      -- neither the old root nor the orphan was anybody's child
      have hcr : c ≠ r := fun he => by
        have := hs.top q hq
        rw [he] at hht
        omega
      have hcy : c ≠ y := fun he => by
        rw [he, hyp] at hcp
        exact absurd hcp (by simp)
      rw [hparent c hlt hcr hcy, hcp]
    · rw [hroot] at hi ⊢
      have hi' : i = 0 ∨ i = 1 := by
        have : i ≤ 1 := hi
        omega
      rcases hi' with rfl | rfl
      · refine ⟨r, by simp [rootNode, setAt], Nat.lt_succ_of_lt hr, by rw [hold r hr, hnew], ?_⟩
        rw [rootHeap_kid hr hylt (.inl rfl)]
      · refine ⟨y, by simp [rootNode, setAt], Nat.lt_succ_of_lt hylt,
          by rw [hold y hylt, hnew, hy], ?_⟩
        rw [rootHeap_kid hr hylt (.inr rfl)]
  · rcases hcases hq with hq | rfl
    · rw [hold q hq] at hq0
      obtain ⟨b, hb⟩ := hcell q hq
      rw [hb] at hi hj hij
      exact hs.distinct q hq hq0 i j hi hj hij
    · rw [hroot] at hi hj hij
      have hi' : i ≤ 1 := hi
      have hj' : j ≤ 1 := hj
      by_contra hne
      have hry : r ≠ y := fun he => hyr he.symm
      rcases Nat.lt_or_gt_of_ne hne with hlt | hlt
      · obtain ⟨rfl, rfl⟩ : i = 0 ∧ j = 1 := by omega
        simp [rootNode, setAt, hry] at hij
      · obtain ⟨rfl, rfl⟩ : i = 1 ∧ j = 0 := by omega
        simp [rootNode, setAt, hyr] at hij
  · rcases hcases hq with hq | rfl
    · by_cases hq' : q = r ∨ q = y
      · refine ⟨h.size, Nat.lt_succ_self _, by rw [rootHeap_kid hr hylt hq'],
          by rw [hnew]; omega, ?_⟩
        rw [hroot]
        rcases hq' with rfl | rfl
        · exact ⟨0, Nat.zero_le _, by simp [rootNode, setAt]⟩
        · exact ⟨1, Nat.le_refl _, by simp [rootNode, setAt]⟩
      · rw [not_or] at hq'
        obtain ⟨z, hz, hpz, hz0, i, hi, hc⟩ :=
          hs.parent q hq hq'.1 fun he => hq'.2 (Option.some.inj he).symm
        obtain ⟨b, hb⟩ := hcell z hz
        refine ⟨z, Nat.lt_succ_of_lt hz, by rw [hparent q hq hq'.1 hq'.2, hpz],
          by rw [hold z hz]; exact hz0, i, ?_, ?_⟩
        · rw [hb]
          exact hi
        · rw [hb]
          exact hc
    · exact absurd rfl hqr

/-- The parent of a node that was split takes in the new one. -/
theorem Shape.grow (hs : Shape h r ht (some y) none) (hp : p < h.size) (hy : ht y + 1 = ht p)
    (hpos : pos ≤ (h.cell p).numKeys) : Shape (growHeap h p pos key y) r ht none (some p) := by
  obtain ⟨hylt, hyr, hyp⟩ := hs.alone y rfl
  have h0 : 0 < ht p := by omega
  have hpy : y ≠ p := fun he => by rw [he] at hy; omega
  have hself : (growHeap h p pos key y).cell p = grown (h.cell p) pos key y := growHeap_self
  have hnew : (growHeap h p pos key y).cell y = { h.cell y with parent := some p } :=
    growHeap_new hpy
  have hparent : ∀ q, q ≠ y → ((growHeap h p pos key y).cell q).parent = (h.cell q).parent := by
    intro q hq
    by_cases hqp : q = p
    · rw [hqp, hself]
      rfl
    · rw [growHeap_other hqp hq]
  have hcell : ∀ q, q ≠ p →
      ∃ b, (growHeap h p pos key y).cell q = { h.cell q with parent := b } := by
    intro q hqp
    by_cases hqy : q = y
    · exact ⟨_, by rw [hqy, hnew]⟩
    · exact ⟨_, growHeap_other hqp hqy⟩
  have hchild_ne : ∀ q, q < h.size → 0 < ht q → ∀ i, i ≤ (h.cell q).numKeys →
      (h.cell q).children i ≠ some y := by
    intro q hq hq0 i hi hc
    obtain ⟨-, -, hcp⟩ := hs.kid_of_child hq hq0 hi hc
    rw [hyp] at hcp
    exact absurd hcp (by simp)
  -- the children of the parent, old and new
  have hgrown : ∀ i, i ≤ (h.cell p).numKeys + 1 →
      (i = pos + 1 ∧ (grown (h.cell p) pos key y).children i = some y) ∨
      ∃ j, j ≤ (h.cell p).numKeys ∧ i = (if j ≤ pos then j else j + 1) ∧
        (grown (h.cell p) pos key y).children i = (h.cell p).children j := by
    intro i hi
    rcases Nat.lt_trichotomy i (pos + 1) with hlt | rfl | hgt
    · exact .inr ⟨i, by omega, by rw [if_pos (by omega)], grown_children_le (by omega)⟩
    · exact .inl ⟨rfl, grown_children_self⟩
    · obtain ⟨j, rfl⟩ : ∃ j, i = j + 1 := ⟨i - 1, by omega⟩
      exact .inr ⟨j, by omega, by rw [if_neg (by omega)],
        grown_children_succ (by omega) (by omega)⟩
  refine ⟨hs.root, hs.top, hs.tall, fun q hq => ?_, fun q hq z hz => ?_, fun q hq hne => ?_,
    fun q hq hq0 i hi => ?_, fun q hq hq0 i j hi hj hij => ?_, fun q hq hqr _ => ?_,
    fun _ hy => absurd hy (by simp)⟩
  · rw [← hs.isLeaf q hq]
    by_cases hqp : q = p
    · rw [hqp, hself]
      rfl
    · obtain ⟨b, hb⟩ := hcell q hqp
      rw [hb]
  · by_cases hqp : q = p
    · rw [hqp, hself] at hz
      rw [hqp]
      exact hs.next p hp z hz
    · obtain ⟨b, hb⟩ := hcell q hqp
      rw [hb] at hz
      exact hs.next q hq z hz
  · obtain ⟨b, hb⟩ := hcell q fun he => hne (by rw [he])
    rw [hb]
    exact hs.cap q hq (by simp)
  · by_cases hqp : q = p
    · subst hqp
      rw [hself] at hi ⊢
      rcases hgrown i hi with ⟨-, hc⟩ | ⟨j, hj, -, hc⟩
      · exact ⟨y, hc, hylt, hy, by rw [hnew]⟩
      · obtain ⟨c, hcj, hlt, hht, hcp⟩ := hs.kid q hp h0 j hj
        refine ⟨c, hc.trans hcj, hlt, hht, ?_⟩
        rw [hparent c fun he => hchild_ne q hp h0 j hj (he ▸ hcj), hcp]
    · obtain ⟨b, hb⟩ := hcell q hqp
      rw [hb] at hi ⊢
      obtain ⟨c, hci, hlt, hht, hcp⟩ := hs.kid q hq hq0 i hi
      refine ⟨c, hci, hlt, hht, ?_⟩
      rw [hparent c fun he => hchild_ne q hq hq0 i hi (he ▸ hci), hcp]
  · by_cases hqp : q = p
    · subst hqp
      rw [hself] at hi hj hij
      rcases hgrown i hi with ⟨rfl, hci⟩ | ⟨i', hi', hii, hci⟩ <;>
        rcases hgrown j hj with ⟨rfl, hcj⟩ | ⟨j', hj', hjj, hcj⟩
      · rfl
      · exact absurd (hcj.symm.trans (hij.symm.trans hci)) (hchild_ne q hp h0 j' hj')
      · exact absurd (hci.symm.trans (hij.trans hcj)) (hchild_ne q hp h0 i' hi')
      · have := hs.distinct q hp h0 i' j' hi' hj' (hci.symm.trans (hij.trans hcj))
        rw [hii, hjj, this]
    · obtain ⟨b, hb⟩ := hcell q hqp
      rw [hb] at hi hj hij
      exact hs.distinct q hq hq0 i j hi hj hij
  · by_cases hqy : q = y
    · subst hqy
      refine ⟨p, hp, by rw [hnew], h0, pos + 1, ?_, ?_⟩
      · rw [hself]
        exact Nat.succ_le_succ hpos
      · rw [hself]
        exact grown_children_self
    · obtain ⟨z, hz, hpz, hz0, i, hi, hc⟩ :=
        hs.parent q hq hqr fun he => hqy (Option.some.inj he).symm
      refine ⟨z, hz, (hparent q hqy).trans hpz, hz0, ?_⟩
      by_cases hzp : z = p
      · subst hzp
        rw [hself]
        by_cases hip : i ≤ pos
        · exact ⟨i, Nat.le_succ_of_le hi, (grown_children_le hip).trans hc⟩
        · exact ⟨i + 1, Nat.succ_le_succ hi,
            (grown_children_succ (Nat.lt_of_not_le hip) hi).trans hc⟩
      · obtain ⟨b, hb⟩ := hcell z hzp
        rw [hb]
        exact ⟨i, hi, hc⟩

theorem Shape.mem_movedKids (hs : Shape h r ht none (some p)) (hp : p < h.size) (h0 : 0 < ht p)
    (hfull : (h.cell p).numKeys = bptreeOrder) {q : NodeId} :
    q ∈ movedKids (h.cell p) ↔ ∃ i, (h.cell p).numKeys / 2 < i ∧
      i ≤ (h.cell p).numKeys ∧ (h.cell p).children i = some q := by
  have hord : bptreeOrder = 256 := rfl
  rw [Proofs.mem_movedKids (by omega)]
  refine exists_congr fun i => and_congr_right fun _ => and_congr_right fun hi => ?_
  obtain ⟨c, hc, -⟩ := hs.kid p hp h0 i hi
  simp [childId, hc]

/-- A node is not among its own children. -/
theorem Shape.notMem_movedKids (hs : Shape h r ht none (some p)) (hp : p < h.size)
    (h0 : 0 < ht p) (hfull : (h.cell p).numKeys = bptreeOrder) : p ∉ movedKids (h.cell p) := by
  intro hmem
  obtain ⟨i, -, hi, hc⟩ := (hs.mem_movedKids hp h0 hfull).mp hmem
  obtain ⟨-, hht, -⟩ := hs.kid_of_child hp h0 hi hc
  omega

theorem splitHeap_links {q : NodeId} (hq : q < h.size) (hm : p ∉ movedKids (h.cell p)) :
    ((splitHeap h p).cell q).prev = (h.cell q).prev ∧
      ((splitHeap h p).cell q).next = (h.cell q).next := by
  by_cases hqp : q = p
  · subst hqp
    rw [splitHeap_self hq hm]
    exact ⟨rfl, rfl⟩
  · by_cases hq' : q ∈ movedKids (h.cell p)
    · rw [splitHeap_moved hq hqp hq']
      exact ⟨rfl, rfl⟩
    · rw [splitHeap_other hq hqp hq']
      exact ⟨rfl, rfl⟩

/-- A full inner node gives its upper children to a new one. -/
theorem Shape.cutInner (hs : Shape h r ht none (some p)) (hp : p < h.size) (h0 : 0 < ht p)
    (hfull : (h.cell p).numKeys = bptreeOrder) {ht' : NodeId → Nat}
    (hold : ∀ q, q < h.size → ht' q = ht q) (hnew : ht' h.size = ht p) :
    Shape (splitHeap h p) r ht' (some h.size) none := by
  have hord : bptreeOrder = 256 := rfl
  have hr := hs.root
  have hmoved : ∀ {q}, q ∈ movedKids (h.cell p) ↔ ∃ i, (h.cell p).numKeys / 2 < i ∧
      i ≤ (h.cell p).numKeys ∧ (h.cell p).children i = some q :=
    hs.mem_movedKids hp h0 hfull
  have hpm := hs.notMem_movedKids hp h0 hfull
  have hself := splitHeap_self hp hpm
  have hfresh : (splitHeap h p).cell h.size = upperHalf (h.cell p) := splitHeap_new
  have hcases : ∀ {q}, q < (splitHeap h p).size → q < h.size ∨ q = h.size := by
    intro q hq
    rw [splitHeap_size] at hq
    omega
  have hcell : ∀ q, q < h.size → q ≠ p →
      ∃ b, (splitHeap h p).cell q = { h.cell q with parent := b } := by
    intro q hq hqp
    by_cases hm : q ∈ movedKids (h.cell p)
    · exact ⟨_, splitHeap_moved hq hqp hm⟩
    · exact ⟨_, splitHeap_other hq hqp hm⟩
  have hparent : ∀ q, q < h.size → q ∉ movedKids (h.cell p) →
      ((splitHeap h p).cell q).parent = (h.cell q).parent := by
    intro q hq hm
    by_cases hqp : q = p
    · rw [hqp, hself]
    · rw [splitHeap_other hq hqp hm]
  -- who moved was a child of the full node
  have hmoved_parent : ∀ q, q ∈ movedKids (h.cell p) → (h.cell q).parent = some p := by
    intro q hm
    obtain ⟨i, -, hi, hc⟩ := hmoved.mp hm
    exact (hs.kid_of_child hp h0 hi hc).2.2
  refine ⟨Nat.lt_succ_of_lt hr, fun q hq => ?_, ?_, fun q hq => ?_, fun q hq z hz => ?_,
    fun q hq _ => ?_, fun q hq hq0 i hi => ?_, fun q hq hq0 i j hi hj hij => ?_,
    fun q hq hqr ho => ?_, fun y hy => ?_⟩
  · rw [hold r hr]
    rcases hcases hq with hq | rfl
    · rw [hold q hq]
      exact hs.top q hq
    · rw [hnew]
      exact hs.top p hp
  · rw [splitHeap_size, hold r hr]
    exact Nat.lt_succ_of_lt hs.tall
  · rcases hcases hq with hq | rfl
    · rw [hold q hq, ← hs.isLeaf q hq]
      by_cases hqp : q = p
      · rw [hqp, hself]
      · obtain ⟨b, hb⟩ := hcell q hq hqp
        rw [hb]
    · rw [hfresh, hnew]
      have : ht p ≠ 0 := by omega
      simp [upperHalf, Node.new, this]
  · rw [splitHeap_size]
    rcases hcases hq with hq | rfl
    · have hz' : (h.cell q).next = some z := by
        by_cases hqp : q = p
        · rw [hqp, hself] at hz
          rw [hqp]
          exact hz
        · obtain ⟨b, hb⟩ := hcell q hq hqp
          rw [hb] at hz
          exact hz
      obtain ⟨hlt, hne⟩ := hs.next q hq z hz'
      exact ⟨Nat.lt_succ_of_lt hlt, hne⟩
    · rw [hfresh] at hz
      exact absurd hz (by simp [upperHalf, Node.new])
  · rcases hcases hq with hq | rfl
    · by_cases hqp : q = p
      · rw [hqp, hself]
        change (h.cell p).numKeys / 2 < _
        omega
      · obtain ⟨b, hb⟩ := hcell q hq hqp
        rw [hb]
        exact hs.cap q hq fun he => hqp (Option.some.inj he).symm
    · rw [hfresh]
      change (h.cell p).numKeys - (h.cell p).numKeys / 2 - 1 < _
      omega
  · rcases hcases hq with hq | rfl
    · by_cases hqp : q = p
      · subst hqp
        rw [hself] at hi ⊢
        have hi' : i ≤ (h.cell q).numKeys / 2 := hi
        obtain ⟨c, hc, hlt, hht, hcp⟩ := hs.kid q hp h0 i (by omega)
        refine ⟨c, hc, Nat.lt_succ_of_lt hlt, by rw [hold c hlt, hold q hp, hht], ?_⟩
        rw [hparent c hlt, hcp]
        intro hm
        obtain ⟨j, hj, hjn, hcj⟩ := hmoved.mp hm
        have := hs.distinct q hp h0 i j (by omega) hjn (hc.trans hcj.symm)
        omega
      · rw [hold q hq] at hq0
        obtain ⟨b, hb⟩ := hcell q hq hqp
        rw [hb] at hi ⊢
        obtain ⟨c, hc, hlt, hht, hcp⟩ := hs.kid q hq hq0 i hi
        refine ⟨c, hc, Nat.lt_succ_of_lt hlt, by rw [hold c hlt, hold q hq, hht], ?_⟩
        rw [hparent c hlt, hcp]
        intro hm
        exact hqp (Option.some.inj (hcp.symm.trans (hmoved_parent c hm)))
    · rw [hfresh] at hi ⊢
      have hi' : i ≤ (h.cell p).numKeys - (h.cell p).numKeys / 2 - 1 := hi
      obtain ⟨c, hc, hlt, hht, -⟩ :=
        hs.kid p hp h0 ((h.cell p).numKeys / 2 + 1 + i) (by omega)
      refine ⟨c, (upperHalf_children hi).trans hc, Nat.lt_succ_of_lt hlt,
        by rw [hold c hlt, hnew, hht], ?_⟩
      rw [splitHeap_moved hlt (fun he => by rw [he] at hht; omega)
        (hmoved.mpr ⟨_, by omega, by omega, hc⟩)]
  · rcases hcases hq with hq | rfl
    · by_cases hqp : q = p
      · subst hqp
        rw [hself] at hi hj hij
        have hi' : i ≤ (h.cell q).numKeys / 2 := hi
        have hj' : j ≤ (h.cell q).numKeys / 2 := hj
        exact hs.distinct q hp h0 i j (by omega) (by omega) hij
      · rw [hold q hq] at hq0
        obtain ⟨b, hb⟩ := hcell q hq hqp
        rw [hb] at hi hj hij
        exact hs.distinct q hq hq0 i j hi hj hij
    · rw [hfresh, upperHalf_children (by rw [hfresh] at hi; exact hi),
        upperHalf_children (by rw [hfresh] at hj; exact hj)] at hij
      rw [hfresh] at hi hj
      have hi' : i ≤ (h.cell p).numKeys - (h.cell p).numKeys / 2 - 1 := hi
      have hj' : j ≤ (h.cell p).numKeys - (h.cell p).numKeys / 2 - 1 := hj
      have := hs.distinct p hp h0 _ _ (by omega) (by omega) hij
      omega
  · rcases hcases hq with hq | rfl
    · obtain ⟨z, hz, hpz, hz0, i, hi, hc⟩ := hs.parent q hq hqr (by simp)
      by_cases hm : q ∈ movedKids (h.cell p)
      · -- a child that moved has the new node for its parent
        have hqp : q ≠ p := fun he => hpm (he ▸ hm)
        obtain ⟨j, hj, hjn, hcj⟩ := hmoved.mp hm
        have hle : j - ((h.cell p).numKeys / 2 + 1) ≤ (upperHalf (h.cell p)).numKeys := by
          change _ ≤ (h.cell p).numKeys - (h.cell p).numKeys / 2 - 1
          omega
        refine ⟨h.size, Nat.lt_succ_self _, by rw [splitHeap_moved hq hqp hm],
          by rw [hnew]; exact h0, j - ((h.cell p).numKeys / 2 + 1), ?_, ?_⟩
        · rw [hfresh]
          exact hle
        · rw [hfresh, upperHalf_children hle, show (h.cell p).numKeys / 2 + 1 +
            (j - ((h.cell p).numKeys / 2 + 1)) = j by omega, hcj]
      · refine ⟨z, Nat.lt_succ_of_lt hz, (hparent q hq hm).trans hpz,
          by rw [hold z hz]; exact hz0, i, ?_⟩
        by_cases hzp : z = p
        · subst hzp
          rw [hself]
          refine ⟨?_, hc⟩
          change i ≤ (h.cell z).numKeys / 2
          by_contra hgt
          exact hm (hmoved.mpr ⟨i, by omega, hi, hc⟩)
        · obtain ⟨b, hb⟩ := hcell z hz hzp
          rw [hb]
          exact ⟨hi, hc⟩
    · exact absurd rfl ho
  · obtain rfl := Option.some.inj hy
    refine ⟨Nat.lt_succ_self _, Nat.ne_of_gt hr, ?_⟩
    rw [hfresh]
    rfl

end Steps

/-! ## The whole insertion -/

section Insert

variable {t : BPTree} {r : NodeId} {ht : NodeId → Nat}

/-- The new leaf of a split goes right behind the old one. -/
theorem Chained.cut {h : Heap Node} {p : NodeId} {ht ht' : NodeId → Nat}
    {first : Option NodeId} {l : List NodeId} (hl : Chained h ht first l) (hp : p < h.size)
    (h0 : ht p = 0) (hold : ∀ q, q < h.size → ht' q = ht q) (hnew : ht' h.size = 0) :
    ∃ l', Chained (leafHeap h p) ht' first l' := by
  obtain ⟨a, b, rfl⟩ := List.append_of_mem ((hl.mem p).mpr ⟨hp, h0⟩)
  have hlt : ∀ q ∈ a ++ p :: b, q < h.size := fun q hq => ((hl.mem q).mp hq).1
  have hperm : (a ++ p :: h.size :: b).Perm (h.size :: (a ++ p :: b)) := by
    refine (List.Perm.append_left a (List.Perm.swap h.size p b)).trans ?_
    exact List.perm_middle
  refine ⟨a ++ p :: h.size :: b, hl.linked.cut hl.nodup hlt, ?_, ?_, fun q => ?_⟩
  · rw [hl.first]
    cases a <;> rfl
  · rw [hperm.nodup_iff, List.nodup_cons]
    exact ⟨fun hmem => Nat.lt_irrefl _ (hlt _ hmem), hl.nodup⟩
  · rw [hperm.mem_iff, List.mem_cons, hl.mem, leafHeap_size]
    constructor
    · rintro (rfl | ⟨hq, hq0⟩)
      · exact ⟨Nat.lt_succ_self _, hnew⟩
      · exact ⟨Nat.lt_succ_of_lt hq, (hold q hq).trans hq0⟩
    · rintro ⟨hq, hq0⟩
      rcases Nat.lt_succ_iff_lt_or_eq.mp hq with hq | rfl
      · exact .inr ⟨hq, (hold q hq).symm.trans hq0⟩
      · exact .inl rfl

theorem Chained.put {h : Heap Node} {p : NodeId} {ht : NodeId → Nat} {first : Option NodeId}
    {l : List NodeId} (hl : Chained h ht first l) {n : Node}
    (hprev : n.prev = (h.cell p).prev) (hnext : n.next = (h.cell p).next) :
    Chained (h.put p n) ht first l := by
  refine ⟨hl.linked.congr fun q _ => ?_, hl.first, hl.nodup, hl.mem⟩
  rw [Heap.put_cell]
  split
  · next hq =>
      rw [hq]
      exact ⟨hprev, hnext⟩
  · exact ⟨rfl, rfl⟩

/-- Where a node that is not the root hangs: the search among the children of
its parent ends there. -/
theorem Shape.slot {h : Heap Node} {r x y : NodeId} {ht : NodeId → Nat}
    (hs : Shape h r ht (some y) none) (hx : x < h.size) (hyx : ht y = ht x) (hxr : x ≠ r)
    (hne : y ≠ x) : ∃ p pos, p < h.size ∧ (h.cell x).parent = some p ∧ 0 < ht p ∧
      ht x + 1 = ht p ∧ p ≠ y ∧ pos ≤ (h.cell p).numKeys ∧
      (h.cell p).children pos = some x ∧ ∀ i, i < pos → (h.cell p).children i ≠ some x := by
  obtain ⟨p, hp, hpar, h0, pos, hpos, hchild⟩ :=
    hs.parent x hx hxr fun he => hne (Option.some.inj he)
  obtain ⟨-, hht, -⟩ := hs.kid_of_child hp h0 hpos hchild
  refine ⟨p, pos, hp, hpar, h0, hht, fun he => ?_, hpos, hchild, fun i hi hc => ?_⟩
  · rw [he] at hht
    omega
  · have := hs.distinct p hp h0 i pos (by omega) hpos (hc.trans hchild.symm)
    omega

/-- The children of a node are there. -/
theorem Shape.kidId {h : Heap Node} {r p : NodeId} {ht : NodeId → Nat}
    {orphan full : Option NodeId} (hs : Shape h r ht orphan full) (hp : p < h.size)
    (h0 : 0 < ht p) {i : Nat} (hi : i ≤ (h.cell p).numKeys) :
    (h.cell p).children i = some (childId (h.cell p) i) ∧ childId (h.cell p) i < h.size := by
  obtain ⟨c, hc, hlt, -⟩ := hs.kid p hp h0 i hi
  have hid : childId (h.cell p) i = c := by simp [childId, hc]
  exact ⟨by rw [hid, hc], by rw [hid]; exact hlt⟩

/-- The climb ends at the root, two calls for each level. -/
theorem Shape.insertIntoParent : ∀ (fuel : Nat) {t : BPTree} {r x y : NodeId}
    {ht : NodeId → Nat} (key : Value), t.root = some r → Shape t.pool r ht (some y) none →
    x < t.pool.size → ht y = ht x → 2 * (ht r - ht x) + 1 ≤ fuel → (x ≠ r → y ≠ x) →
    ∃ t' r' ht', BPTree.insertIntoParent fuel t x key y = .ok t' ∧ t'.root = some r' ∧
      Shape t'.pool r' ht' none none ∧ t'.height + ht r = t.height + ht' r' ∧
      Climbed t t' ht ht' ∧
      (Filled t.pool r t.size → share (t.pool.cell x) ≤ (t.pool.cell x).numKeys →
        Filled t'.pool r' t'.size) := by
  intro fuel
  induction fuel using Nat.strong_induction_on with
  | _ fuel ih =>
      intro t r x y ht key hroot hs hx hyx hfuel hne
      obtain ⟨hylt, hyr, hyp⟩ := hs.alone y rfl
      by_cases hxr : x = r
      · subst hxr
        obtain ⟨f, rfl⟩ : ∃ f, fuel = f + 1 := ⟨fuel - 1, by omega⟩
        refine ⟨_, _, fun q => if q = t.pool.size then ht x + 1 else ht q,
          insertIntoParent_root f hroot hx hylt, rfl, ?_, ?_, ?_,
          fun hf hshare => rootHeap_fill hx hylt hshare hf⟩
        · exact hs.newRoot hyx (fun q hq => if_neg (Nat.ne_of_lt hq)) (if_pos rfl)
        · dsimp only
          rw [if_pos rfl]
          omega
        · refine ⟨Nat.le_succ _, fun q hq => if_neg (Nat.ne_of_lt hq), fun q hge hq => ?_,
            fun q hq => ?_, rfl⟩
          · have hq' : q < t.pool.size + 1 := hq
            obtain rfl : q = t.pool.size := by omega
            rw [if_pos rfl]
            exact Nat.succ_pos _
          · dsimp only
            by_cases hq' : q = x ∨ q = y
            · rw [rootHeap_kid hx hylt hq']
              exact ⟨rfl, rfl⟩
            · rw [not_or] at hq'
              rw [rootHeap_other hq hq'.1 hq'.2]
              exact ⟨rfl, rfl⟩
      · obtain ⟨p, pos, hp, hpar, h0, hht, hpy, hpos, hchild, hfirst⟩ :=
          hs.slot hx hyx hxr (hne hxr)
        have htop := hs.top p hp
        obtain ⟨f, rfl⟩ : ∃ f, fuel = f + 2 := ⟨fuel - 2, by omega⟩
        have hcap := hs.cap p hp (by simp)
        have hg : Shape (growHeap t.pool p pos key y) r ht none (some p) :=
          hs.grow hp (by omega) hpos
        have hclimb : Climbed t { t with pool := growHeap t.pool p pos key y } ht ht := by
          refine ⟨Nat.le_refl _, fun _ _ => rfl, fun q hge hq => ?_, fun q hq => ?_, rfl⟩
          · exact absurd hq (Nat.not_lt_of_le hge)
          · by_cases hqp : q = p
            · rw [hqp, growHeap_self]
              exact ⟨rfl, rfl⟩
            · by_cases hqy : q = y
              · rw [hqy, growHeap_new hpy.symm]
                exact ⟨rfl, rfl⟩
              · rw [growHeap_other hqp hqy]
                exact ⟨rfl, rfl⟩
        have hgrow : Filled t.pool r t.size → Filled (growHeap t.pool p pos key y) r t.size :=
          growHeap_fill hp hpy.symm (hs.inner hp h0) hs.root
        have hnum : ((growHeap t.pool p pos key y).cell p).numKeys =
            (t.pool.cell p).numKeys + 1 := by rw [growHeap_self]; rfl
        rw [insertIntoParent_inner (f + 1) (fun he => hxr (Option.some.inj (he.symm.trans hroot)))
          hx hylt hp hpy hpar hcap hpos hchild hfirst]
        by_cases hfull : bptreeOrder ≤ (t.pool.cell p).numKeys + 1
        · have hfull' : ((growHeap t.pool p pos key y).cell p).numKeys = bptreeOrder := by
            rw [hnum]
            omega
          have hsplit := splitInternal_spec
            (t := { t with pool := growHeap t.pool p pos key y }) f hp hfull'
            fun i hi => hg.kidId hp h0 hi
          let ht' : NodeId → Nat := fun q => if q = t.pool.size then ht p else ht q
          have hold : ∀ q, q < t.pool.size → ht' q = ht q := fun q hq =>
            if_neg (Nat.ne_of_lt hq)
          have hnew : ht' t.pool.size = ht p := if_pos rfl
          have hcut := hg.cutInner hp h0 hfull' hold hnew
          rw [if_pos hfull, hsplit]
          have hsplitClimb : Climbed { t with pool := growHeap t.pool p pos key y }
              { t with pool := splitHeap (growHeap t.pool p pos key y) p } ht ht' := by
            refine ⟨Nat.le_succ _, hold, fun q hge hq => ?_, fun q hq => ?_, rfl⟩
            · have hq' : q < t.pool.size + 1 := hq
              have hge' : t.pool.size ≤ q := hge
              obtain rfl : q = t.pool.size := by omega
              rw [hnew]
              exact h0
            · exact splitHeap_links hq (hg.notMem_movedKids hp h0 hfull')
          obtain ⟨t', r', ht₁, hrun, hroot', hs', hheight, hclimb', hfill⟩ := ih f (by omega)
            (t := { t with pool := splitHeap (growHeap t.pool p pos key y) p })
            (((growHeap t.pool p pos key y).cell p).keys
              (((growHeap t.pool p pos key y).cell p).numKeys / 2)) hroot hcut
            (Nat.lt_succ_of_lt hp) (hnew.trans (hold p hp).symm)
            (by rw [hold r hs.root, hold p hp]; omega) fun _ => Nat.ne_of_gt hp
          refine ⟨t', r', ht₁, hrun, hroot', hs', ?_, (hclimb.trans hsplitClimb).trans hclimb',
            fun hf _ => ?_⟩
          · rw [← hheight, hold r hs.root]
          · obtain ⟨hf', hshare⟩ := splitHeap_fill (h := growHeap t.pool p pos key y) hp
              (hg.inner hp h0) hfull' (hg.notMem_movedKids hp h0 hfull') hs.root (hgrow hf)
            exact hfill hf' hshare
        · rw [if_neg hfull]
          exact ⟨_, r, ht, rfl, hroot, hg.relax (by rw [hnum]; omega), rfl, hclimb,
            fun hf _ => hgrow hf⟩

theorem Shape.splitLeaf {p : NodeId} (hroot : t.root = some r)
    (hs : Shape t.pool r ht none (some p)) (hp : p < t.pool.size) (h0 : ht p = 0)
    (hfull : (t.pool.cell p).numKeys = bptreeOrder) :
    ∃ t' r' ht', t.splitLeaf p = .ok t' ∧ t'.root = some r' ∧
      Shape t'.pool r' ht' none none ∧ t'.height + ht r = t.height + ht' r' ∧
      (∀ l, Chained t.pool ht t.leftmostLeaf l →
        ∃ l', Chained t'.pool ht' t'.leftmostLeaf l') ∧
      (Filled t.pool r t.size → Filled t'.pool r' t'.size) := by
  let ht' : NodeId → Nat := fun q => if q = t.pool.size then 0 else ht q
  have hold : ∀ q, q < t.pool.size → ht' q = ht q := fun q hq => if_neg (Nat.ne_of_lt hq)
  have hnew : ht' t.pool.size = 0 := if_pos rfl
  have htall := hs.tall
  rw [splitLeaf_spec hp hfull fun q hq => (hs.next p hp q hq).1]
  obtain ⟨t', r', ht₁, hrun, hroot', hs', hheight, hclimb, hfill⟩ := Shape.insertIntoParent
    (t := { t with pool := leafHeap t.pool p }) (2 * (t.pool.size + 1))
    ((t.pool.cell p).keys ((t.pool.cell p).numKeys / 2)) hroot (hs.cutLeaf hp h0 hfull hold hnew)
    (by rw [leafHeap_size]; exact Nat.lt_succ_of_lt hp) (by rw [hnew, hold p hp, h0])
    (by rw [hold r hs.root, hold p hp]; omega) fun _ => Nat.ne_of_gt hp
  refine ⟨t', r', ht₁, hrun, hroot', hs', by rw [← hheight, hold r hs.root], fun l hl => ?_,
    fun hf => ?_⟩
  · obtain ⟨l', hl'⟩ := hl.cut hp h0 hold hnew
    exact ⟨l', Chained.climb (t := { t with pool := leafHeap t.pool p }) hl' hclimb⟩
  have hleaf : (t.pool.cell p).isLeaf = true := by
    rw [hs.isLeaf p hp]
    exact decide_eq_true h0
  obtain ⟨hf', hshare⟩ := leafHeap_fill hp hleaf hfull (fun hn => (hs.next p hp p hn).2 rfl)
    (fun hn => absurd (hs.next p hp _ hn).1 (Nat.lt_irrefl _)) hs.root hf
  exact hfill hf' hshare

theorem Shape.insert (hroot : t.root = some r) (hs : Shape t.pool r ht none none) (key : Value)
    (rowId : Nat) : ∃ t' r' ht', t.insert key rowId = .ok (t', true) ∧ t'.root = some r' ∧
      Shape t'.pool r' ht' none none ∧ t'.height + ht r = t.height + ht' r' ∧
      (∀ l, Chained t.pool ht t.leftmostLeaf l →
        ∃ l', Chained t'.pool ht' t'.leftmostLeaf l') ∧
      (Filled t.pool r t.size → Filled t'.pool r' t'.size) := by
  obtain ⟨p, hleaf, hp, h0⟩ : ∃ p, t.findLeaf key = .ok (some p) ∧ p < t.pool.size ∧ ht p = 0 := by
    rw [BPTree.findLeaf, hroot]
    exact hs.findLeafLoop _ r hs.root hs.tall
  have hcap := hs.cap p hp (by simp)
  obtain ⟨pos, hpos, hle⟩ := lowerBound_le (Nat.le_of_lt hcap) key
  by_cases htie : pos < (t.pool.cell p).numKeys ∧ ((t.pool.cell p).keys pos).eq key = true
  · refine ⟨_, r, ht, insert_tie hleaf hp hcap hpos htie.1 htie.2 rowId, hroot, ?_, rfl,
      fun l hl => ⟨l, hl.put rfl rfl⟩, fun hf => ?_⟩
    · refine Shape.relax (p := p) (hs.put hp h0 rfl rfl rfl) ?_
      rw [Heap.put_cell_self]
      exact hcap
    · have hmore := put_fill (n := overwritten (t.pool.cell p) pos rowId) hp rfl (Nat.le_refl _)
        hs.root hf
      rwa [load_overwritten, Nat.sub_self] at hmore
  · have hne : pos < (t.pool.cell p).numKeys → ((t.pool.cell p).keys pos).eq key = false :=
      fun hlt => by simpa using fun he => htie ⟨hlt, he⟩
    have hput : Shape (t.pool.put p (filled (t.pool.cell p) pos key rowId)) r ht none (some p) :=
      hs.put hp h0 rfl rfl rfl
    have hnum : ((t.pool.put p (filled (t.pool.cell p) pos key rowId)).cell p).numKeys =
        (t.pool.cell p).numKeys + 1 := by
      rw [Heap.put_cell_self]
      rfl
    have hone : Filled t.pool r t.size →
        Filled (t.pool.put p (filled (t.pool.cell p) pos key rowId)) r (t.size + 1) := by
      intro hf
      have hmore := put_fill (n := filled (t.pool.cell p) pos key rowId) hp rfl
        (Nat.le_succ _) hs.root hf
      have hleaf' : (t.pool.cell p).isLeaf = true := by
        rw [hs.isLeaf p hp]
        exact decide_eq_true h0
      rwa [load_leaf hleaf', load_leaf (n := filled (t.pool.cell p) pos key rowId) hleaf',
        filled, Nat.add_sub_cancel_left] at hmore
    rw [insert_new hleaf hp hcap hpos hle hne rowId]
    dsimp only
    split
    · obtain ⟨t', r', ht', hsplit, hroot', hs', hheight, hchain, hfill⟩ := Shape.splitLeaf
        (t := { t with pool := t.pool.put p (filled (t.pool.cell p) pos key rowId)
                       size := t.size + 1 }) hroot hput hp h0 (hnum.trans (by omega))
      exact ⟨t', r', ht', by rw [hsplit]; rfl, hroot', hs', hheight,
        fun l hl => hchain l (hl.put rfl rfl), fun hf => hfill (hone hf)⟩
    · exact ⟨_, r, ht, rfl, hroot, hput.relax (by rw [hnum]; omega), rfl,
        fun l hl => ⟨l, hl.put rfl rfl⟩, hone⟩

theorem filled_new (ty : DataType) : Filled (BPTree.new ty).pool 0 0 := by
  refine ⟨fun p hp hne => absurd (Nat.lt_one_iff.mp hp) hne, fun hin => ?_, rfl⟩
  exact absurd (show true = false from hin) (by simp)

theorem chained_new (ty : DataType) :
    Chained (BPTree.new ty).pool (fun _ => 0) (BPTree.new ty).leftmostLeaf [0] := by
  refine ⟨⟨rfl, rfl, trivial⟩, rfl, List.nodup_singleton 0, fun p => ?_⟩
  have hsize : (BPTree.new ty).pool.size = 1 := rfl
  rw [List.mem_singleton, hsize, Nat.lt_one_iff]
  exact ⟨fun h => ⟨h, rfl⟩, fun h => h.1⟩

/-- What is known of a tree whatever its keys are. -/
structure Scannable (t : BPTree) (r : NodeId) (ht : NodeId → Nat) (l : List NodeId) : Prop where
  root : t.root = some r
  shape : Shape t.pool r ht none none
  height : t.height = ht r + 1
  chain : Chained t.pool ht t.leftmostLeaf l
  filled : Filled t.pool r t.size

theorem scannable_new (ty : DataType) : Scannable (BPTree.new ty) 0 (fun _ => 0) [0] :=
  ⟨rfl, shape_new, rfl, chained_new ty, filled_new ty⟩

theorem Scannable.insert {l : List NodeId} (h : Scannable t r ht l) (key : Value) (rowId : Nat) :
    ∃ t' r' ht' l', t.insert key rowId = .ok (t', true) ∧ Scannable t' r' ht' l' := by
  obtain ⟨t', r', ht', hins, hroot, hs, hheight, hchain, hfill⟩ :=
    h.shape.insert h.root key rowId
  obtain ⟨l', hl'⟩ := hchain l h.chain
  have := h.height
  exact ⟨t', r', ht', l', hins, hroot, hs, by omega, hl', hfill h.filled⟩

/-- Every history of insertions runs through, and leaves a tree. -/
theorem insertAll_scannable (ty : DataType) (ops : List (Value × Nat)) :
    ∃ t r ht l, (BPTree.new ty).insertAll ops = .ok t ∧ Scannable t r ht l := by
  suffices hrun : ∀ {t r ht l}, Scannable t r ht l →
      ∃ t' r' ht' l', t.insertAll ops = .ok t' ∧ Scannable t' r' ht' l' from hrun (scannable_new ty)
  induction ops with
  | nil => exact fun {t r ht l} h => ⟨t, r, ht, l, rfl, h⟩
  | cons op ops ih =>
      intro t r ht l h
      obtain ⟨t₁, r₁, ht₁, l₁, hins, h₁⟩ := h.insert op.1 op.2
      obtain ⟨t', r', ht', l', hrest, h'⟩ := ih h₁
      exact ⟨t', r', ht', l', by rw [BPTree.insertAll, hins]; exact hrest, h'⟩

/-- An index can be built over any list of keys. -/
theorem insertAll_total (ty : DataType) (ops : List (Value × Nat)) :
    ∃ t, (BPTree.new ty).insertAll ops = .ok t := by
  obtain ⟨t, r, ht, l, hrun, _⟩ := insertAll_scannable ty ops
  exact ⟨t, hrun⟩

end Insert

end FlexQL.Proofs
