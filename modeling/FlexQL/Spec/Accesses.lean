import FlexQL.Lib.Traced
import FlexQL.Ref.BPTree

/-!
# The array accesses of an insertion

The insertion of `Ref.BPTree` once more, with arrays that have no extent: an
access goes through whatever its index is, and is recorded. Where
`insert_into_parent` has searched the children of a node for another, the node
it searched and the position it ended at are recorded as well.
-/

namespace FlexQL.Spec

open Lib FlexQL.Ref

/-- What is recorded. -/
inductive Access where
  | key (i : Nat)
  | rowId (i : Nat)
  | child (i : Nat)
  /-- The search for `left` among the children of `parent` has ended. -/
  | search (parent : Node) (left : NodeId) (pos : Nat)

/-- The index is inside its array, and the search has found what it was for. -/
def Access.Sound : Access → Prop
  | .key i => i < bptreeOrder
  | .rowId i => i < bptreeOrder
  | .child i => i ≤ bptreeOrder
  | .search parent left pos => pos ≤ parent.numKeys ∧ parent.children pos = some left

namespace Trace

open Traced (record call)

def key (n : Node) (i : Nat) : Traced Access Value := do
  record (.key i)
  pure (n.keys i)

def rowId (n : Node) (i : Nat) : Traced Access Nat := do
  record (.rowId i)
  pure (n.rowIds i)

def child (n : Node) (i : Nat) : Traced Access (Option NodeId) := do
  record (.child i)
  pure (n.children i)

def setKey (n : Node) (i : Nat) (v : Value) : Traced Access Node := do
  record (.key i)
  pure { n with keys := setAt n.keys i v }

def setRowId (n : Node) (i : Nat) (r : Nat) : Traced Access Node := do
  record (.rowId i)
  pure { n with rowIds := setAt n.rowIds i r }

def setChild (n : Node) (i : Nat) (c : Option NodeId) : Traced Access Node := do
  record (.child i)
  pure { n with children := setAt n.children i c }

/-- The loop of `lower_bound`. -/
def lowerBoundLoop (node : Node) (k : Value) (lo hi : Nat) : Traced Access Nat :=
  if _h : lo < hi then do
    let mid := (lo + hi) / 2
    let v ← key node mid
    if v.lt k then lowerBoundLoop node k (mid + 1) hi
    else lowerBoundLoop node k lo mid
  else pure lo
termination_by hi - lo

/-- `lower_bound` -/
def lowerBound (node : Node) (k : Value) : Traced Access Nat :=
  lowerBoundLoop node k 0 node.numKeys

/-- The loop of `find_leaf`. -/
def findLeafLoop (h : Heap Node) (k : Value) :
    Nat → Option NodeId → Traced Access (Option NodeId)
  | _, none => pure none
  | 0, some _ => call (.error .diverged)
  | fuel + 1, some p => do
      let cur ← call (h.get p)
      if cur.isLeaf then pure (some p)
      else
        let idx ← lowerBound cur k
        if idx = cur.numKeys then
          let c ← child cur idx
          findLeafLoop h k fuel c
        else
          let v ← key cur idx
          if v.eq k then
            let c ← child cur (idx + 1)
            findLeafLoop h k fuel c
          else
            let c ← child cur idx
            findLeafLoop h k fuel c

/-- `find_leaf` -/
def findLeaf (t : BPTree) (k : Value) : Traced Access (Option NodeId) :=
  findLeafLoop t.pool k t.pool.size t.root

/-- `pos < node->num_keys && node->keys[pos] == key` -/
def keyIs (node : Node) (pos : Nat) (k : Value) : Traced Access Bool :=
  if pos < node.numKeys then do
    let v ← key node pos
    pure (v.eq k)
  else pure false

/-- The loop of `insert` that makes room. -/
def shiftEntries (pos : Nat) : Nat → Node → Traced Access Node
  | 0, n => pure n
  | i + 1, n =>
      if pos < i + 1 then do
        let k ← key n i
        let n ← setKey n (i + 1) k
        let r ← rowId n i
        let n ← setRowId n (i + 1) r
        shiftEntries pos i n
      else pure n

/-- The loop of `insert_into_parent` that makes room. -/
def shiftChildren (pos : Nat) : Nat → Node → Traced Access Node
  | 0, n => pure n
  | i + 1, n =>
      if pos < i + 1 then do
        let k ← key n i
        let n ← setKey n (i + 1) k
        let c ← child n (i + 1)
        let n ← setChild n (i + 2) c
        shiftChildren pos i n
      else pure n

/-- The loop of `split_leaf`. -/
def moveEntries (src : Node) (mid : Nat) : Nat → Nat → Node → Traced Access Node
  | 0, _, dst => pure dst
  | count + 1, i, dst => do
      let k ← key src (mid + i)
      let dst ← setKey dst i k
      let r ← rowId src (mid + i)
      let dst ← setRowId dst i r
      moveEntries src mid count (i + 1) dst

/-- The first loop of `split_internal`. -/
def moveKeys (src : Node) (mid : Nat) : Nat → Nat → Node → Traced Access Node
  | 0, _, dst => pure dst
  | count + 1, i, dst => do
      let k ← key src (mid + 1 + i)
      let dst ← setKey dst i k
      moveKeys src mid count (i + 1) dst

/-- The second loop of `split_internal`. -/
def moveChildren (src : Node) (mid : Nat) (self : NodeId) :
    Nat → Nat → Heap Node → Node → Traced Access (Heap Node × Node)
  | 0, _, h, dst => pure (h, dst)
  | count + 1, i, h, dst => do
      let c ← child src (mid + 1 + i)
      let dst ← setChild dst i c
      match c with
      | none => moveChildren src mid self count (i + 1) h dst
      | some p =>
          let n ← call (h.get p)
          moveChildren src mid self count (i + 1)
            (h.put p { n with parent := some self }) dst

/-- The search loop of `insert_into_parent`. -/
def childPos (parent : Node) (left : NodeId) : Nat → Nat → Traced Access Nat
  | 0, pos => pure pos
  | count + 1, pos => do
      let c ← child parent pos
      if c = some left then pure pos else childPos parent left count (pos + 1)

mutual

/-- `insert_into_parent` -/
def insertIntoParent : Nat → BPTree → NodeId → Value → NodeId → Traced Access BPTree
  | 0, _, _, _, _ => call (.error .diverged)
  | fuel + 1, t, left, k, right => do
      if t.root = some left then
        let newRoot := Node.new false
        let newRoot ← setKey newRoot 0 k
        let newRoot ← setChild newRoot 0 (some left)
        let newRoot ← setChild newRoot 1 (some right)
        let newRoot := { newRoot with numKeys := 1 }
        let (h, r) := t.pool.alloc newRoot
        let l ← call (h.get left)
        let h := h.put left { l with parent := some r }
        let n ← call (h.get right)
        let h := h.put right { n with parent := some r }
        pure { t with root := some r, height := t.height + 1, pool := h }
      else
        let l ← call (t.pool.get left)
        let n ← call (t.pool.get right)
        let h := t.pool.put right { n with parent := l.parent }
        let parent ← call (deref h l.parent)
        let pos ← childPos parent left (parent.numKeys + 1) 0
        record (.search parent left pos)
        let parent ← shiftChildren pos parent.numKeys parent
        let parent ← setKey parent pos k
        let parent ← setChild parent (pos + 1) (some right)
        let parent := { parent with numKeys := parent.numKeys + 1 }
        let h := h.put (l.parent.getD 0) parent
        if bptreeOrder ≤ parent.numKeys then
          splitInternal fuel { t with pool := h } (l.parent.getD 0)
        else pure { t with pool := h }

/-- `split_internal` -/
def splitInternal : Nat → BPTree → NodeId → Traced Access BPTree
  | 0, _, _ => call (.error .diverged)
  | fuel + 1, t, p => do
      let (h, q) := t.pool.alloc (Node.new false)
      let node ← call (h.get p)
      let mid := node.numKeys / 2
      let promoteKey ← key node mid
      let count := node.numKeys - mid - 1
      let newNode := { Node.new false with numKeys := count }
      let newNode ← moveKeys node mid count 0 newNode
      let (h, newNode) ← moveChildren node mid q (count + 1) 0 h newNode
      let node ← call (h.get p)
      let h := h.put p { node with numKeys := mid }
      let h := h.put q newNode
      insertIntoParent fuel { t with pool := h } p promoteKey q

end

/-- `split_leaf` -/
def splitLeaf (t : BPTree) (p : NodeId) : Traced Access BPTree := do
  let (h, q) := t.pool.alloc (Node.new true)
  let leaf ← call (h.get p)
  let mid := leaf.numKeys / 2
  let count := leaf.numKeys - mid
  let newLeaf ← moveEntries leaf mid count 0 { Node.new true with numKeys := count }
  let newLeaf := { newLeaf with next := leaf.next, prev := some p }
  let h := h.put q newLeaf
  let h ← call (BPTree.relinkNext h leaf.next q)
  let leaf ← call (h.get p)
  let h := h.put p { leaf with numKeys := mid, next := some q }
  let first ← key newLeaf 0
  insertIntoParent (2 * h.size) { t with pool := h } p first q

/-- `insert` -/
def insert (t : BPTree) (k : Value) (r : Nat) : Traced Access (BPTree × Bool) := do
  match ← findLeaf t k with
  | none => pure (t, false)
  | some p =>
      let leaf ← call (t.pool.get p)
      let pos ← lowerBound leaf k
      if ← keyIs leaf pos k then
        let leaf ← setRowId leaf pos r
        pure ({ t with pool := t.pool.put p leaf }, true)
      else
        let leaf ← shiftEntries pos leaf.numKeys leaf
        let leaf ← setKey leaf pos k
        let leaf ← setRowId leaf pos r
        let leaf := { leaf with numKeys := leaf.numKeys + 1 }
        let t := { t with pool := t.pool.put p leaf, size := t.size + 1 }
        if bptreeOrder ≤ leaf.numKeys then
          let t ← splitLeaf t p
          pure (t, true)
        else pure (t, true)

end Trace

end FlexQL.Spec
