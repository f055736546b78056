import FlexQL.Lib.Cells
import FlexQL.Lib.Heap
import FlexQL.Ref.Common

/-!
# The B+ tree index (`bptree.h`, `bptree.cpp`)

Nodes live in a pool and point at each other by pool index. The arrays of a
node are functions from the index with every access checked against the
declared extent: reading or writing outside it is undefined, and so is
following a null pointer. A row id is a `uint64_t` kept as a number.

Three loops are bounded by nothing in the source but the shape of the tree:
the descent, the climb of a split, and the walk along the leaf chain. They
run on fuel taken from the size of the pool, and running out is `diverged`.

The seven scans differ in where they start and in what they do at a key:
`Verdict` is what the body of the inner loop decides, and each scan is the
one loop at its own start and verdict.
-/

namespace FlexQL.Ref

open Lib

abbrev NodeId := Nat

/-- `BPTree::Node` -/
structure Node where
  isLeaf : Bool
  numKeys : Nat
  keys : Nat → Value
  children : Nat → Option NodeId
  rowIds : Nat → Nat
  next : Option NodeId
  prev : Option NodeId
  parent : Option NodeId

namespace Node

/-- The constructor: everything null and zero. -/
def new (leaf : Bool) : Node where
  isLeaf := leaf
  numKeys := 0
  keys := fun _ => default
  children := fun _ => none
  rowIds := fun _ => 0
  next := none
  prev := none
  parent := none

instance : Inhabited Node := ⟨new true⟩

def key (n : Node) (i : Nat) : Outcome Value :=
  if i < bptreeOrder then .ok (n.keys i) else .error .undefined

def rowId (n : Node) (i : Nat) : Outcome Nat :=
  if i < bptreeOrder then .ok (n.rowIds i) else .error .undefined

def child (n : Node) (i : Nat) : Outcome (Option NodeId) :=
  if i < bptreeOrder + 1 then .ok (n.children i) else .error .undefined

def setKey (n : Node) (i : Nat) (v : Value) : Outcome Node :=
  if i < bptreeOrder then .ok { n with keys := setAt n.keys i v }
  else .error .undefined

def setRowId (n : Node) (i : Nat) (r : Nat) : Outcome Node :=
  if i < bptreeOrder then .ok { n with rowIds := setAt n.rowIds i r }
  else .error .undefined

def setChild (n : Node) (i : Nat) (c : Option NodeId) : Outcome Node :=
  if i < bptreeOrder + 1 then .ok { n with children := setAt n.children i c }
  else .error .undefined

end Node

/-- `BPTree`; `node_pool_` is `pool`. -/
structure BPTree where
  keyType : DataType
  root : Option NodeId
  leftmostLeaf : Option NodeId
  size : Nat
  height : Nat
  pool : Heap Node

/-- The heap access of `p->field`: null has no fields. -/
def deref (h : Heap Node) : Option NodeId → Outcome Node
  | none => .error .undefined
  | some p => h.get p

namespace BPTree

/-- `BPTree::MIN_KEYS` -/
def minKeys : Nat := (bptreeOrder - 1) / 2

/-- The constructor: one empty leaf. -/
def new (keyType : DataType) : BPTree where
  keyType := keyType
  root := some 0
  leftmostLeaf := some 0
  size := 0
  height := 1
  pool := (Heap.empty.alloc (Node.new true)).1

/-- The loop of `lower_bound`. -/
def lowerBoundLoop (node : Node) (key : Value) (lo hi : Nat) : Outcome Nat :=
  if _h : lo < hi then do
    let mid := (lo + hi) / 2
    let k ← node.key mid
    if k.lt key then lowerBoundLoop node key (mid + 1) hi
    else lowerBoundLoop node key lo mid
  else .ok lo
termination_by hi - lo

/-- `lower_bound`: the first index whose key is not below `key`. -/
def lowerBound (node : Node) (key : Value) : Outcome Nat :=
  lowerBoundLoop node key 0 node.numKeys

/-- The loop of `find_leaf`. -/
def findLeafLoop (h : Heap Node) (key : Value) :
    Nat → Option NodeId → Outcome (Option NodeId)
  | _, none => .ok none
  | 0, some _ => .error .diverged
  | fuel + 1, some p => do
      let cur ← h.get p
      if cur.isLeaf then .ok (some p)
      else
        let idx ← lowerBound cur key
        if idx = cur.numKeys then
          let c ← cur.child idx
          findLeafLoop h key fuel c
        else
          let k ← cur.key idx
          if k.eq key then
            let c ← cur.child (idx + 1)
            findLeafLoop h key fuel c
          else
            let c ← cur.child idx
            findLeafLoop h key fuel c

/-- `find_leaf` -/
def findLeaf (t : BPTree) (key : Value) : Outcome (Option NodeId) :=
  findLeafLoop t.pool key t.pool.size t.root

/-- `pos < node->num_keys && node->keys[pos] == key` -/
def keyIs (node : Node) (pos : Nat) (key : Value) : Outcome Bool :=
  if pos < node.numKeys then do
    let k ← node.key pos
    .ok (k.eq key)
  else .ok false

/-- The loop of `insert` that makes room at `pos`, from index `i` down. -/
def shiftEntries (pos : Nat) : Nat → Node → Outcome Node
  | 0, n => .ok n
  | i + 1, n =>
      if pos < i + 1 then do
        let k ← n.key i
        let n ← n.setKey (i + 1) k
        let r ← n.rowId i
        let n ← n.setRowId (i + 1) r
        shiftEntries pos i n
      else .ok n

/-- The loop of `insert_into_parent` that makes room at `pos`. -/
def shiftChildren (pos : Nat) : Nat → Node → Outcome Node
  | 0, n => .ok n
  | i + 1, n =>
      if pos < i + 1 then do
        let k ← n.key i
        let n ← n.setKey (i + 1) k
        let c ← n.child (i + 1)
        let n ← n.setChild (i + 2) c
        shiftChildren pos i n
      else .ok n

/-- The first loop of `split_leaf`: `count` entries from `mid` on, moved to
the front of the new leaf, from index `i` on. -/
def moveEntries (src : Node) (mid : Nat) : Nat → Nat → Node → Outcome Node
  | 0, _, dst => .ok dst
  | count + 1, i, dst => do
      let k ← src.key (mid + i)
      let dst ← dst.setKey i k
      let r ← src.rowId (mid + i)
      let dst ← dst.setRowId i r
      moveEntries src mid count (i + 1) dst

/-- The first loop of `split_internal`: the keys behind the promoted one. -/
def moveKeys (src : Node) (mid : Nat) : Nat → Nat → Node → Outcome Node
  | 0, _, dst => .ok dst
  | count + 1, i, dst => do
      let k ← src.key (mid + 1 + i)
      let dst ← dst.setKey i k
      moveKeys src mid count (i + 1) dst

/-- The second loop of `split_internal`: the children behind the promoted
key, each of them told its new parent. -/
def moveChildren (src : Node) (mid : Nat) (self : NodeId) :
    Nat → Nat → Heap Node → Node → Outcome (Heap Node × Node)
  | 0, _, h, dst => .ok (h, dst)
  | count + 1, i, h, dst => do
      let c ← src.child (mid + 1 + i)
      let dst ← dst.setChild i c
      match c with
      | none => moveChildren src mid self count (i + 1) h dst
      | some p =>
          let n ← h.get p
          moveChildren src mid self count (i + 1)
            (h.put p { n with parent := some self }) dst

/-- The search loop of `insert_into_parent`, from `pos` on with `count`
slots left; it ends behind the last child when `left` is not among them. -/
def childPos (parent : Node) (left : NodeId) : Nat → Nat → Outcome Nat
  | 0, pos => .ok pos
  | count + 1, pos => do
      let c ← parent.child pos
      if c = some left then .ok pos else childPos parent left count (pos + 1)

mutual

/-- `insert_into_parent` -/
def insertIntoParent : Nat → BPTree → NodeId → Value → NodeId → Outcome BPTree
  | 0, _, _, _, _ => .error .diverged
  | fuel + 1, t, left, key, right => do
      if t.root = some left then
        let newRoot := Node.new false
        let newRoot ← newRoot.setKey 0 key
        let newRoot ← newRoot.setChild 0 (some left)
        let newRoot ← newRoot.setChild 1 (some right)
        let newRoot := { newRoot with numKeys := 1 }
        let (h, r) := t.pool.alloc newRoot
        let l ← h.get left
        let h := h.put left { l with parent := some r }
        let n ← h.get right
        let h := h.put right { n with parent := some r }
        .ok { t with root := some r, height := t.height + 1, pool := h }
      else
        let l ← t.pool.get left
        let n ← t.pool.get right
        let h := t.pool.put right { n with parent := l.parent }
        let parent ← deref h l.parent
        let pos ← childPos parent left (parent.numKeys + 1) 0
        let parent ← shiftChildren pos parent.numKeys parent
        let parent ← parent.setKey pos key
        let parent ← parent.setChild (pos + 1) (some right)
        let parent := { parent with numKeys := parent.numKeys + 1 }
        let h := h.put (l.parent.getD 0) parent
        if bptreeOrder ≤ parent.numKeys then
          splitInternal fuel { t with pool := h } (l.parent.getD 0)
        else .ok { t with pool := h }

/-- `split_internal` -/
def splitInternal : Nat → BPTree → NodeId → Outcome BPTree
  | 0, _, _ => .error .diverged
  | fuel + 1, t, p => do
      let (h, q) := t.pool.alloc (Node.new false)
      let node ← h.get p
      let mid := node.numKeys / 2
      let promoteKey ← node.key mid
      let count := node.numKeys - mid - 1
      let newNode := { Node.new false with numKeys := count }
      let newNode ← moveKeys node mid count 0 newNode
      let (h, newNode) ← moveChildren node mid q (count + 1) 0 h newNode
      let node ← h.get p
      let h := h.put p { node with numKeys := mid }
      let h := h.put q newNode
      insertIntoParent fuel { t with pool := h } p promoteKey q

end

/-- `if (leaf->next) leaf->next->prev = new_leaf;` -/
def relinkNext (h : Heap Node) (next : Option NodeId) (q : NodeId) :
    Outcome (Heap Node) :=
  match next with
  | none => .ok h
  | some r => do
      let n ← h.get r
      .ok (h.put r { n with prev := some q })

/-- `split_leaf` -/
def splitLeaf (t : BPTree) (p : NodeId) : Outcome BPTree := do
  let (h, q) := t.pool.alloc (Node.new true)
  let leaf ← h.get p
  let mid := leaf.numKeys / 2
  let count := leaf.numKeys - mid
  let newLeaf ← moveEntries leaf mid count 0 { Node.new true with numKeys := count }
  let newLeaf := { newLeaf with next := leaf.next, prev := some p }
  let h := h.put q newLeaf
  let h ← relinkNext h leaf.next q
  let leaf ← h.get p
  let h := h.put p { leaf with numKeys := mid, next := some q }
  let first ← newLeaf.key 0
  insertIntoParent (2 * h.size) { t with pool := h } p first q

/-- `insert` -/
def insert (t : BPTree) (key : Value) (rowId : Nat) : Outcome (BPTree × Bool) := do
  match ← t.findLeaf key with
  | none => .ok (t, false)
  | some p =>
      let leaf ← t.pool.get p
      let pos ← lowerBound leaf key
      if ← keyIs leaf pos key then
        let leaf ← leaf.setRowId pos rowId
        .ok ({ t with pool := t.pool.put p leaf }, true)
      else
        let leaf ← shiftEntries pos leaf.numKeys leaf
        let leaf ← leaf.setKey pos key
        let leaf ← leaf.setRowId pos rowId
        let leaf := { leaf with numKeys := leaf.numKeys + 1 }
        let t := { t with pool := t.pool.put p leaf, size := t.size + 1 }
        if bptreeOrder ≤ leaf.numKeys then
          let t ← t.splitLeaf p
          .ok (t, true)
        else .ok (t, true)

/-- `static_cast<int64_t>` of a `uint64_t`. -/
def toInt64 (r : Nat) : Int :=
  if r % 2 ^ 64 < 2 ^ 63 then (r % 2 ^ 64 : Nat) else (r % 2 ^ 64 : Nat) - 2 ^ 64

/-- `find` -/
def find (t : BPTree) (key : Value) : Outcome Int := do
  match ← t.findLeaf key with
  | none => .ok (-1)
  | some p =>
      let leaf ← t.pool.get p
      let pos ← lowerBound leaf key
      if ← keyIs leaf pos key then
        let r ← leaf.rowId pos
        .ok (toInt64 r)
      else .ok (-1)

/-- What the body of a scan does at a key. -/
inductive Verdict where
  /-- Call the callback with the row id. -/
  | visit
  /-- Go on to the next key. -/
  | skip
  /-- End the scan. -/
  | stop
  deriving DecidableEq, Repr

/-- A `RangeCallback` with the state it captures: `false` aborts the scan. -/
abbrev RangeCallback (σ : Type) := σ → Nat → σ × Bool

section Scans

variable {σ : Type}

/-- The inner loop of a scan, over `count` keys from index `i` on; `false`
when the scan has ended. -/
def scanKeys (leaf : Node) (verdict : Value → Verdict) (cb : RangeCallback σ) :
    Nat → Nat → σ → Outcome (σ × Bool)
  | 0, _, s => .ok (s, true)
  | count + 1, i, s => do
      let k ← leaf.key i
      match verdict k with
      | .stop => .ok (s, false)
      | .skip => scanKeys leaf verdict cb count (i + 1) s
      | .visit =>
          let r ← leaf.rowId i
          match cb s r with
          | (s, false) => .ok (s, false)
          | (s, true) => scanKeys leaf verdict cb count (i + 1) s

/-- The outer loop of a scan: leaf after leaf, from index `pos` of the first. -/
def scanChain (h : Heap Node) (verdict : Value → Verdict) (cb : RangeCallback σ) :
    Nat → Option NodeId → Nat → σ → Outcome σ
  | _, none, _, s => .ok s
  | 0, some _, _, _ => .error .diverged
  | fuel + 1, some p, pos, s => do
      let leaf ← h.get p
      match ← scanKeys leaf verdict cb (leaf.numKeys - pos) pos s with
      | (s, false) => .ok s
      | (s, true) => scanChain h verdict cb fuel leaf.next 0 s

/-- A scan from the leftmost leaf. -/
def scanFromLeft (t : BPTree) (verdict : Value → Verdict) (cb : RangeCallback σ)
    (s : σ) : Outcome σ :=
  scanChain t.pool verdict cb t.pool.size t.leftmostLeaf 0 s

/-- A scan from where `key` would be. -/
def scanFromKey (t : BPTree) (key : Value) (verdict : Value → Verdict)
    (cb : RangeCallback σ) (s : σ) : Outcome σ := do
  match ← t.findLeaf key with
  | none => .ok s
  | some p =>
      let leaf ← t.pool.get p
      let pos ← lowerBound leaf key
      scanChain t.pool verdict cb t.pool.size (some p) pos s

/-- `range_eq` -/
def rangeEq (t : BPTree) (key : Value) (cb : RangeCallback σ) (s : σ) : Outcome σ := do
  match ← t.findLeaf key with
  | none => .ok s
  | some p =>
      let leaf ← t.pool.get p
      let pos ← lowerBound leaf key
      if ← keyIs leaf pos key then
        let r ← leaf.rowId pos
        .ok (cb s r).1
      else .ok s

/-- `range_gt` -/
def rangeGt (t : BPTree) (key : Value) (cb : RangeCallback σ) (s : σ) : Outcome σ :=
  t.scanFromKey key (fun k => if k.gt key then .visit else .skip) cb s

/-- `range_ge` -/
def rangeGe (t : BPTree) (key : Value) (cb : RangeCallback σ) (s : σ) : Outcome σ :=
  t.scanFromKey key (fun _ => .visit) cb s

/-- `range_lt` -/
def rangeLt (t : BPTree) (key : Value) (cb : RangeCallback σ) (s : σ) : Outcome σ :=
  t.scanFromLeft (fun k => if k.ge key then .stop else .visit) cb s

/-- `range_le` -/
def rangeLe (t : BPTree) (key : Value) (cb : RangeCallback σ) (s : σ) : Outcome σ :=
  t.scanFromLeft (fun k => if k.gt key then .stop else .visit) cb s

/-- `range_ne` -/
def rangeNe (t : BPTree) (key : Value) (cb : RangeCallback σ) (s : σ) : Outcome σ :=
  t.scanFromLeft (fun k => if k.eq key then .skip else .visit) cb s

/-- `scan_all` -/
def scanAll (t : BPTree) (cb : RangeCallback σ) (s : σ) : Outcome σ :=
  t.scanFromLeft (fun _ => .visit) cb s

end Scans

end BPTree

end FlexQL.Ref
