import FlexQL.Ref.BPTree
import FlexQL.Spec.KeyOrder

/-!
# What the index is for, and what it promises about itself

Seen from outside, the tree is a finite map: `latest` says what a history of
insertions has stored under a key, and the history is all that matters.

Seen from inside, it is a search tree threaded by a chain. `OrderLinks` states
that over the nodes themselves: which nodes hang below which follows from the
child pointers alone, and the left-to-right order of the leaves is that of a
depth-first walk. Both walks are given as many steps as the pool has nodes
and answer `none` when they would need more, so a cycle cannot pass for a
tree. `Balanced` is about the levels: where the leaves are, how full the nodes
are, and how many keys a tree of some height has therefore.
-/

namespace FlexQL.Ref.BPTree

open Lib

/-- The tree after a sequence of `insert` calls. -/
def insertAll (t : BPTree) : List (Value × Nat) → Outcome BPTree
  | [] => .ok t
  | op :: ops => do
      let (t, _) ← t.insert op.1 op.2
      t.insertAll ops

end FlexQL.Ref.BPTree

namespace FlexQL.Spec

open Lib FlexQL.Ref

/-- The row id of the last insertion of `k`. -/
def latest (ops : List (Value × Nat)) (k : Value) : Option Nat :=
  (ops.reverse.find? fun op => op.1 = k).map (·.2)

/-- The row ids of the entries whose key `p` holds for. -/
def selected (es : List (Value × Nat)) (p : Value → Bool) : List Nat :=
  (es.filter fun e => p e.1).map (·.2)

/-- What a callback is left with after it was called with row ids one after
another, up to the first call that returns `false`. -/
def feed {σ : Type} (cb : BPTree.RangeCallback σ) : List Nat → σ → σ
  | [], s => s
  | r :: l, s =>
      match cb s r with
      | (s, false) => s
      | (s, true) => feed cb l s

/-- `q` hangs below `p`. -/
inductive Under (h : Heap Node) : NodeId → NodeId → Prop where
  | refl (p : NodeId) : Under h p p
  | child {p c q : NodeId} {i : Nat} :
      (h.cell p).isLeaf = false → i ≤ (h.cell p).numKeys →
      (h.cell p).children i = some c → Under h c q → Under h p q

/-- The concatenation of the answers for a list of nodes, if all answer. -/
def concat (g : NodeId → Option (List NodeId)) : List (Option NodeId) → Option (List NodeId)
  | [] => some []
  | none :: _ => none
  | some p :: l => (g p).bind fun a => (concat g l).map (a ++ ·)

/-- The leaves below a node, depth first from the left. -/
def leavesOf (h : Heap Node) : Nat → NodeId → Option (List NodeId)
  | 0, _ => none
  | fuel + 1, p =>
      if (h.cell p).isLeaf then some [p]
      else concat (leavesOf h fuel)
        (firstN (h.cell p).children ((h.cell p).numKeys + 1))

/-- The nodes on the chain of `next` pointers. -/
def chainFrom (h : Heap Node) : Nat → Option NodeId → Option (List NodeId)
  | _, none => some []
  | 0, some _ => none
  | fuel + 1, some p => (chainFrom h fuel (h.cell p).next).map (p :: ·)

/-- Order of the keys and consistency of the links, node by node. -/
structure OrderLinks (t : BPTree) (r : NodeId) : Prop where
  root : t.root = some r
  /-- The keys of a node are strictly ascending. -/
  ascending : ∀ p, Under t.pool r p → ∀ i j, i < j → j < (t.pool.cell p).numKeys →
    ((t.pool.cell p).keys i).lt ((t.pool.cell p).keys j) = true
  /-- What hangs below the child left of a separator is below it. -/
  left : ∀ p, Under t.pool r p → (t.pool.cell p).isLeaf = false →
    ∀ i, i < (t.pool.cell p).numKeys → ∃ c, (t.pool.cell p).children i = some c ∧
      ∀ q, Under t.pool c q → ∀ j, j < (t.pool.cell q).numKeys →
        ((t.pool.cell q).keys j).lt ((t.pool.cell p).keys i) = true
  /-- What hangs below the child right of a separator is not below it. -/
  right : ∀ p, Under t.pool r p → (t.pool.cell p).isLeaf = false →
    ∀ i, i < (t.pool.cell p).numKeys → ∃ c, (t.pool.cell p).children (i + 1) = some c ∧
      ∀ q, Under t.pool c q → ∀ j, j < (t.pool.cell q).numKeys →
        ((t.pool.cell q).keys j).ge ((t.pool.cell p).keys i) = true
  /-- The chain from the leftmost leaf is the leaves from left to right. -/
  chain : ∃ l, leavesOf t.pool t.pool.size r = some l ∧
    chainFrom t.pool t.pool.size t.leftmostLeaf = some l ∧
    (∀ p ∈ l, ∀ q ∈ l, (t.pool.cell p).next = some q ↔ (t.pool.cell q).prev = some p) ∧
    ∀ p, l.head? = some p → (t.pool.cell p).prev = none
  /-- A node's parent is the node that holds it as a child. -/
  parent : ∀ p, Under t.pool r p → (t.pool.cell p).isLeaf = false →
    ∀ i, i ≤ (t.pool.cell p).numKeys → ∀ c, (t.pool.cell p).children i = some c →
      (t.pool.cell c).parent = some p
  rootParent : (t.pool.cell r).parent = none

/-- `p` is on level `d` below `r`, which is on level 1. -/
inductive AtDepth (h : Heap Node) (r : NodeId) : Nat → NodeId → Prop where
  | root : AtDepth h r 1 r
  | child {d : Nat} {p c : NodeId} {i : Nat} : AtDepth h r d p →
      (h.cell p).isLeaf = false → i ≤ (h.cell p).numKeys →
      (h.cell p).children i = some c → AtDepth h r (d + 1) c

/-- The tree is balanced and its nodes are at least half full. -/
structure Balanced (t : BPTree) (r : NodeId) : Prop where
  root : t.root = some r
  depth : ∀ d p, AtDepth t.pool r d p → (t.pool.cell p).isLeaf = true → d = t.height
  occupied : ∀ d p, AtDepth t.pool r d p → p ≠ r →
    BPTree.minKeys ≤ (t.pool.cell p).numKeys ∧ (t.pool.cell p).numKeys ≤ bptreeOrder - 1
  rootKeys : (t.pool.cell r).isLeaf = false → 1 ≤ (t.pool.cell r).numKeys
  /-- The children of an internal node, one more than its keys, are there and
  no two are the same. -/
  children : ∀ d p, AtDepth t.pool r d p → (t.pool.cell p).isLeaf = false →
    (∀ i, i ≤ (t.pool.cell p).numKeys → (t.pool.cell p).children i ≠ none) ∧
    ∀ i j, i ≤ (t.pool.cell p).numKeys → j ≤ (t.pool.cell p).numKeys →
      (t.pool.cell p).children i = (t.pool.cell p).children j → i = j
  size : ∀ h, t.height = h → 2 ≤ h → 2 * 128 ^ (h - 1) ≤ t.size

end FlexQL.Spec
