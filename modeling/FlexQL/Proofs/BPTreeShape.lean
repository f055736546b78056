import FlexQL.Proofs.BPTreeNode

/-!
# The shape of the tree

A `Slot` is a node together with the half-open interval of keys it is
responsible for. The slots of an internal node's children follow from its
own: the separators cut its interval. Read level by level, that makes the
whole tree a tower of lists of slots: the top level is the root with the
unbounded interval, and each level is the concatenation of the child slots of
the level above.

Everything the invariant says about a node is then local to it and its slot.
A node that splits replaces its slot by two whose intervals share the
promoted key, and one list equation per level says that the parent knows.
-/

namespace FlexQL.Proofs

open Lib FlexQL.Ref FlexQL.Spec

/-- A node and the interval of keys below it; a missing bound is infinite. -/
structure Slot where
  id : NodeId
  lo : Option Value
  hi : Option Value

/-- `lo ≤ k` -/
def AtLeast (lo : Option Value) (k : Value) : Prop :=
  ∀ b, lo = some b → k.lt b = false

/-- `lo < k` -/
def Above (lo : Option Value) (k : Value) : Prop :=
  ∀ b, lo = some b → b.lt k = true

/-- `k < hi` -/
def Below (hi : Option Value) (k : Value) : Prop :=
  ∀ b, hi = some b → k.lt b = true

theorem Above.atLeast {P : Value → Prop} (o : WeakOrderOn P Value.lt Value.eq)
    {lo : Option Value} {k : Value} (hlo : ∀ b, lo = some b → P b) (hk : P k)
    (h : Above lo k) : AtLeast lo k :=
  fun b hb => o.asymm (hlo b hb) hk (h b hb)

theorem atLeast_some {b k : Value} : AtLeast (some b) k ↔ k.lt b = false := by
  simp [AtLeast]

theorem above_some {b k : Value} : Above (some b) k ↔ b.lt k = true := by
  simp [Above]

theorem below_some {b k : Value} : Below (some b) k ↔ k.lt b = true := by
  simp [Below]

/-- The child pointer as an index; meaningful where it is not null. -/
def childId (n : Node) (i : Nat) : NodeId := (n.children i).getD 0

/-- The slot of the `i`-th child of a node with the given interval. -/
def kidSlot (n : Node) (lo hi : Option Value) (i : Nat) : Slot where
  id := childId n i
  lo := if i = 0 then lo else some (n.keys (i - 1))
  hi := if i = n.numKeys then hi else some (n.keys i)

/-- The slots of all children, left to right. -/
def slotsOf (n : Node) (lo hi : Option Value) : List Slot :=
  firstN (kidSlot n lo hi) (n.numKeys + 1)

def kidSlots (h : Heap Node) (s : Slot) : List Slot :=
  slotsOf (h.cell s.id) s.lo s.hi

/-- Bounds that can be compared with keys. -/
structure Bounds (P : Value → Prop) (lo hi : Option Value) : Prop where
  lo : ∀ b, lo = some b → P b
  hi : ∀ b, hi = some b → P b

/-- A leaf's keys are ascending and inside its interval. -/
structure LeafNode (P : Value → Prop) (n : Node) (lo hi : Option Value) : Prop where
  leaf : n.isLeaf = true
  keys : Keys P n
  bounds : Bounds P lo hi
  lo : ∀ i, i < n.numKeys → AtLeast lo (n.keys i)
  hi : ∀ i, i < n.numKeys → Below hi (n.keys i)

/-- An internal node's separators are ascending and strictly inside its
interval, and it has one child more than separators. -/
structure InnerNode (P : Value → Prop) (n : Node) (lo hi : Option Value) : Prop where
  inner : n.isLeaf = false
  keys : Keys P n
  bounds : Bounds P lo hi
  lo : ∀ i, i < n.numKeys → Above lo (n.keys i)
  hi : ∀ i, i < n.numKeys → Below hi (n.keys i)
  kid : ∀ i, i ≤ n.numKeys → n.children i = some (childId n i)

/-- A leaf in its slot. -/
structure LeafOK (P : Value → Prop) (h : Heap Node) (s : Slot) : Prop where
  node : LeafNode P (h.cell s.id) s.lo s.hi
  cap : (h.cell s.id).numKeys < bptreeOrder

/-- An internal node in its slot; its children name it as their parent. -/
structure InnerOK (P : Value → Prop) (h : Heap Node) (s : Slot) : Prop where
  node : InnerNode P (h.cell s.id) s.lo s.hi
  pos : 0 < (h.cell s.id).numKeys
  cap : (h.cell s.id).numKeys < bptreeOrder
  parent : ∀ c ∈ kidSlots h s, (h.cell c.id).parent = some s.id

/-- The levels above `l`, from the parents of `l` up to the root `r`. -/
def Tower (P : Value → Prop) (h : Heap Node) (r : NodeId) :
    List Slot → List (List Slot) → Prop
  | l, [] => l = [⟨r, none, none⟩] ∧ (h.cell r).parent = none
  | l, u :: us =>
      u.flatMap (kidSlots h) = l ∧ (∀ s ∈ u, InnerOK P h s) ∧
        (∀ s ∈ l, BPTree.minKeys ≤ (h.cell s.id).numKeys) ∧ Tower P h r u us

def ids (l : List Slot) : List NodeId := l.map (·.id)

@[simp] theorem mem_ids {l : List Slot} {q : NodeId} :
    q ∈ ids l ↔ ∃ s ∈ l, s.id = q := by simp [ids]

@[simp] theorem ids_append (l l' : List Slot) : ids (l ++ l') = ids l ++ ids l' := by
  simp [ids]

@[simp] theorem ids_cons (s : Slot) (l : List Slot) : ids (s :: l) = s.id :: ids l := rfl

/-- The leaf chain from `p`'s successor on: doubly linked and ending in null. -/
def Linked (h : Heap Node) : Option NodeId → List NodeId → Prop
  | _, [] => True
  | p, a :: l => (h.cell a).prev = p ∧ (h.cell a).next = l.head? ∧ Linked h (some a) l

/-- The entries of a leaf. -/
def entries (n : Node) : List (Value × Nat) :=
  firstN (fun i => (n.keys i, n.rowIds i)) n.numKeys

/-- The entries of a run of leaves, in order. -/
def contents (h : Heap Node) (l : List Slot) : List (Value × Nat) :=
  l.flatMap fun s => entries (h.cell s.id)

/-- The invariant of the tree, with its levels: the leaves, and the internal
levels from the parents of the leaves up. -/
structure Inv (P : Value → Prop) (t : BPTree) (leaves : List Slot)
    (uppers : List (List Slot)) : Prop where
  tower : ∃ r, t.root = some r ∧ Tower P t.pool r leaves uppers
  leaf : ∀ s ∈ leaves, LeafOK P t.pool s
  nodup : (ids (leaves ++ uppers.flatten)).Nodup
  alloc : ∀ s ∈ leaves ++ uppers.flatten, s.id < t.pool.size
  linked : Linked t.pool none (ids leaves)
  leftmost : t.leftmostLeaf = (ids leaves).head?
  height : t.height = uppers.length + 1
  size : t.size = (contents t.pool leaves).length

/-! ## Slots of the children -/

theorem mem_slotsOf {n : Node} {lo hi : Option Value} {s : Slot} :
    s ∈ slotsOf n lo hi ↔ ∃ i, i ≤ n.numKeys ∧ kidSlot n lo hi i = s := by
  simp only [slotsOf, mem_firstN, Nat.lt_succ_iff]

/-- The node of `insert_into_parent` after its gap was filled. -/
def grown (n : Node) (pos : Nat) (key : Value) (y : NodeId) : Node :=
  { n with
    keys := openAt n.keys pos n.numKeys key
    children := openAt n.children (pos + 1) (n.numKeys + 1) (some y)
    numKeys := n.numKeys + 1 }

/-- What happens to a slot when the node `x` splits at `key` and the upper
half moves to `y`. -/
def splitSlot (x : NodeId) (key : Value) (y : NodeId) (s : Slot) : List Slot :=
  if s.id = x then [⟨x, s.lo, some key⟩, ⟨y, some key, s.hi⟩] else [s]

def splitLevel (x : NodeId) (key : Value) (y : NodeId) (l : List Slot) : List Slot :=
  l.flatMap (splitSlot x key y)

theorem splitLevel_of_notMem {x y : NodeId} {key : Value} {l : List Slot}
    (h : x ∉ ids l) : splitLevel x key y l = l := by
  induction l with
  | nil => rfl
  | cons s l ih =>
      simp only [ids, List.map_cons, List.mem_cons, not_or] at h
      rw [splitLevel, List.flatMap_cons, splitSlot, if_neg (Ne.symm h.1)]
      exact congrArg (s :: ·) (ih h.2)

@[simp] theorem splitLevel_append (x y : NodeId) (key : Value) (l l' : List Slot) :
    splitLevel x key y (l ++ l') = splitLevel x key y l ++ splitLevel x key y l' := by
  simp [splitLevel]

theorem splitLevel_cons (x y : NodeId) (key : Value) (s : Slot) (l : List Slot) :
    splitLevel x key y (s :: l) = splitSlot x key y s ++ splitLevel x key y l := rfl

theorem mem_splitLevel {x y : NodeId} {key : Value} {l : List Slot} {s : Slot}
    (h : s ∈ splitLevel x key y l) :
    (s ∈ l ∧ s.id ≠ x) ∨ ∃ s₀ ∈ l, s₀.id = x ∧
      (s = ⟨x, s₀.lo, some key⟩ ∨ s = ⟨y, some key, s₀.hi⟩) := by
  obtain ⟨s₀, hs₀, hs⟩ := List.mem_flatMap.mp h
  rw [splitSlot] at hs
  split at hs
  · next hx =>
      refine .inr ⟨s₀, hs₀, hx, ?_⟩
      simpa using hs
  · next hx =>
      rw [List.mem_singleton] at hs
      subst hs
      exact .inl ⟨hs₀, hx⟩

theorem mem_ids_splitLevel {x y : NodeId} {key : Value} {l : List Slot} {q : NodeId}
    (h : q ∈ ids (splitLevel x key y l)) : q ∈ ids l ∨ q = y := by
  obtain ⟨s, hs, rfl⟩ := mem_ids.mp h
  rcases mem_splitLevel hs with ⟨hs, _⟩ | ⟨s₀, hs₀, hx, rfl | rfl⟩
  · exact .inl (mem_ids.mpr ⟨s, hs, rfl⟩)
  · exact .inl (mem_ids.mpr ⟨s₀, hs₀, hx⟩)
  · exact .inr rfl

theorem ids_subset_splitLevel {x y : NodeId} {key : Value} {l : List Slot} {q : NodeId}
    (h : q ∈ ids l) : q ∈ ids (splitLevel x key y l) := by
  obtain ⟨s, hs, rfl⟩ := mem_ids.mp h
  rw [mem_ids]
  by_cases hx : s.id = x
  · exact ⟨⟨x, s.lo, some key⟩, List.mem_flatMap.mpr ⟨s, hs, by simp [splitSlot, hx]⟩,
      hx.symm⟩
  · exact ⟨s, List.mem_flatMap.mpr ⟨s, hs, by simp [splitSlot, hx]⟩, rfl⟩

/-- Splitting keeps the nodes of a level distinct. -/
theorem splitLevel_nodup {x y : NodeId} {key : Value} {l : List Slot}
    (h : (ids l).Nodup) (hy : y ∉ ids l) : (ids (splitLevel x key y l)).Nodup := by
  induction l with
  | nil => exact List.nodup_nil
  | cons s l ih =>
      simp only [ids, List.map_cons, List.nodup_cons, List.mem_cons, not_or] at h hy
      have ih' := ih h.2 hy.2
      rw [splitLevel_cons, splitSlot]
      split
      · next hx =>
          have hxl : x ∉ ids l := hx ▸ h.1
          rw [splitLevel_of_notMem hxl]
          simp only [ids, List.cons_append, List.nil_append, List.map_cons,
            List.nodup_cons, List.mem_cons, not_or]
          exact ⟨⟨fun e => hy.1 (by rw [← e, hx]), hxl⟩, hy.2, h.2⟩
      · simp only [ids, List.cons_append, List.nil_append, List.map_cons, List.nodup_cons]
        refine ⟨fun hm => ?_, ih'⟩
        have hm' : s.id ∈ ids (splitLevel x key y l) := hm
        rcases mem_ids_splitLevel hm' with hm | hm
        · exact h.1 hm
        · exact hy.1 hm.symm

theorem kidSlot_id (n : Node) (lo hi : Option Value) (i : Nat) :
    (kidSlot n lo hi i).id = childId n i := rfl

section Grown

variable {n : Node} {pos : Nat} {key : Value} {y : NodeId}

@[simp] theorem grown_numKeys : (grown n pos key y).numKeys = n.numKeys + 1 := rfl

theorem grown_keys_lt {i : Nat} (h : i < pos) :
    (grown n pos key y).keys i = n.keys i := openAt_lt h

@[simp] theorem grown_keys_self : (grown n pos key y).keys pos = key := openAt_self ..

theorem grown_keys_succ {i : Nat} (h : pos ≤ i) (hi : i < n.numKeys) :
    (grown n pos key y).keys (i + 1) = n.keys i := openAt_gt (by omega) (by omega)

theorem grown_children_le {i : Nat} (h : i ≤ pos) :
    (grown n pos key y).children i = n.children i := openAt_lt (by omega)

@[simp] theorem grown_children_self :
    (grown n pos key y).children (pos + 1) = some y := openAt_self ..

theorem grown_children_succ {i : Nat} (h : pos < i) (hi : i ≤ n.numKeys) :
    (grown n pos key y).children (i + 1) = n.children i :=
  openAt_gt (by omega) (by omega)

variable {lo hi : Option Value}

theorem kidSlot_grown_lt {i : Nat} (h : i < pos) (hpos : pos ≤ n.numKeys) :
    kidSlot (grown n pos key y) lo hi i = kidSlot n lo hi i := by
  simp only [kidSlot, childId, grown_children_le (Nat.le_of_lt h), grown_keys_lt h,
    grown_numKeys]
  congr 1
  · split
    · rfl
    · rw [grown_keys_lt (by omega)]
  · rw [if_neg (by omega), if_neg (by omega)]

theorem kidSlot_grown_self (hpos : pos ≤ n.numKeys) :
    kidSlot (grown n pos key y) lo hi pos
      = ⟨childId n pos, (kidSlot n lo hi pos).lo, some key⟩ := by
  simp only [kidSlot, childId, grown_children_le (Nat.le_refl pos), grown_keys_self,
    grown_numKeys]
  congr 1
  · split
    · rfl
    · rw [grown_keys_lt (by omega)]
  · rw [if_neg (by omega)]

theorem kidSlot_grown_next (hpos : pos ≤ n.numKeys) :
    kidSlot (grown n pos key y) lo hi (pos + 1)
      = ⟨y, some key, (kidSlot n lo hi pos).hi⟩ := by
  simp only [kidSlot, childId, grown_children_self, Nat.add_sub_cancel,
    grown_keys_self, grown_numKeys, Option.getD_some, Nat.add_right_cancel_iff]
  congr 1
  split
  · rfl
  · rw [grown_keys_succ (Nat.le_refl _) (by omega)]

theorem kidSlot_grown_gt {i : Nat} (h : pos < i) (hi' : i ≤ n.numKeys) :
    kidSlot (grown n pos key y) lo hi (i + 1) = kidSlot n lo hi i := by
  obtain ⟨j, rfl⟩ : ∃ j, i = j + 1 := ⟨i - 1, by omega⟩
  simp only [kidSlot, childId, grown_children_succ h hi', Nat.add_sub_cancel,
    grown_keys_succ (show pos ≤ j by omega) (show j < n.numKeys by omega),
    grown_numKeys, Nat.add_right_cancel_iff]
  congr 1
  split
  · rfl
  · rw [grown_keys_succ (by omega) (by omega)]

/-- Growing a node at the child that split: its slots are the old ones with
that child's slot split. -/
theorem slotsOf_grown {x : NodeId} (lo hi : Option Value) (hpos : pos ≤ n.numKeys)
    (hx : childId n pos = x)
    (hne : ∀ i, i ≤ n.numKeys → i ≠ pos → childId n i ≠ x) :
    slotsOf (grown n pos key y) lo hi = splitLevel x key y (slotsOf n lo hi) := by
  have hold : slotsOf n lo hi = firstN (kidSlot n lo hi) pos ++ kidSlot n lo hi pos ::
      firstN (fun i => kidSlot n lo hi (pos + 1 + i)) (n.numKeys - pos) := by
    rw [slotsOf, firstN_split _ (show pos < n.numKeys + 1 by omega),
      show n.numKeys + 1 - (pos + 1) = n.numKeys - pos by omega]
  have hnew : slotsOf (grown n pos key y) lo hi =
      firstN (kidSlot n lo hi) pos ++ [⟨x, (kidSlot n lo hi pos).lo, some key⟩,
        ⟨y, some key, (kidSlot n lo hi pos).hi⟩] ++
      firstN (fun i => kidSlot n lo hi (pos + 1 + i)) (n.numKeys - pos) := by
    rw [slotsOf, grown_numKeys, firstN_cut _ (show pos + 2 ≤ n.numKeys + 1 + 1 by omega),
      show n.numKeys + 1 + 1 - (pos + 2) = n.numKeys - pos by omega,
      firstN_succ, firstN_succ, kidSlot_grown_self hpos, kidSlot_grown_next hpos, hx,
      firstN_congr fun i hi' => kidSlot_grown_lt hi' hpos]
    simp only [List.append_assoc, List.cons_append, List.nil_append]
    congr 3
    refine firstN_congr fun i hi' => ?_
    rw [← kidSlot_grown_gt (show pos < pos + 1 + i by omega) (by omega)]
    congr 1
    omega
  have hl : x ∉ ids (firstN (kidSlot n lo hi) pos) := by
    simp only [mem_ids, mem_firstN]
    rintro ⟨s, ⟨i, hi', rfl⟩, hs⟩
    exact hne i (by omega) (by omega) hs
  have hr : x ∉ ids (firstN (fun i => kidSlot n lo hi (pos + 1 + i)) (n.numKeys - pos)) := by
    simp only [mem_ids, mem_firstN]
    rintro ⟨s, ⟨i, hi', rfl⟩, hs⟩
    exact hne (pos + 1 + i) (by omega) (by omega) hs
  rw [hold, hnew, splitLevel_append, splitLevel_cons, splitLevel_of_notMem hl,
    splitLevel_of_notMem hr, splitSlot, if_pos (by rw [kidSlot_id, hx]), List.append_assoc]

end Grown

/-- The two halves of a split internal node have, between them, the slots it
had. -/
theorem slotsOf_halves {n left right : Node} {mid : Nat} (lo hi : Option Value)
    (hmid : mid < n.numKeys)
    (hln : left.numKeys = mid) (hlk : ∀ i, i ≤ mid → left.keys i = n.keys i)
    (hlc : ∀ i, i ≤ mid → left.children i = n.children i)
    (hrn : right.numKeys = n.numKeys - mid - 1)
    (hrk : ∀ i, i < right.numKeys → right.keys i = n.keys (mid + 1 + i))
    (hrc : ∀ i, i ≤ right.numKeys → right.children i = n.children (mid + 1 + i)) :
    slotsOf left lo (some (n.keys mid)) ++ slotsOf right (some (n.keys mid)) hi
      = slotsOf n lo hi := by
  rw [slotsOf, slotsOf, slotsOf, firstN_cut (kidSlot n lo hi)
    (show mid + 1 ≤ n.numKeys + 1 by omega), hln, hrn]
  congr 1
  · refine firstN_congr fun i hi' => ?_
    simp only [kidSlot, childId, hln, hlc i (by omega)]
    congr 1
    · split
      · rfl
      · rw [hlk _ (by omega)]
    · split
      · next h => rw [if_neg (by omega), h]
      · rw [if_neg (by omega), hlk _ (by omega)]
  · rw [show n.numKeys - mid - 1 + 1 = n.numKeys + 1 - (mid + 1) by omega]
    refine firstN_congr fun i hi' => ?_
    simp only [kidSlot, childId, hrn, hrc i (by omega)]
    congr 1
    · rw [if_neg (show ¬ mid + 1 + i = 0 by omega)]
      split
      · next h => subst h; rfl
      · rw [hrk _ (by omega)]
        congr 2
        omega
    · split
      · rw [if_pos (by omega)]
      · rw [if_neg (by omega), hrk _ (by omega)]

/-! ## Node by node -/

section Nodes

variable {P : Value → Prop} {n : Node} {lo hi : Option Value}

theorem kidSlot_bounds (hb : Bounds P lo hi) (hn : Keys P n) {i : Nat}
    (hi' : i ≤ n.numKeys) :
    Bounds P (kidSlot n lo hi i).lo (kidSlot n lo hi i).hi := by
  constructor
  · intro b h
    simp only [kidSlot] at h
    split at h
    · exact hb.lo b h
    · rw [← Option.some.inj h]
      exact hn.typed _ (by omega)
  · intro b h
    simp only [kidSlot] at h
    split at h
    · exact hb.hi b h
    · rw [← Option.some.inj h]
      exact hn.typed _ (by omega)

/-- A key inside the interval of a child is on the right side of every
separator. -/
theorem InnerNode.lt_of_kid (o : WeakOrderOn P Value.lt Value.eq)
    (hn : InnerNode P n lo hi) {pos : Nat} {key : Value} (hk : P key)
    (hpos : pos ≤ n.numKeys) (hlo : Above (kidSlot n lo hi pos).lo key)
    (hhi : Below (kidSlot n lo hi pos).hi key) :
    (∀ i, i < pos → (n.keys i).lt key = true) ∧
      (∀ i, pos ≤ i → i < n.numKeys → key.lt (n.keys i) = true) := by
  constructor
  · intro i hi'
    have hlast : (n.keys (pos - 1)).lt key = true := by
      simp only [kidSlot, if_neg (show ¬ pos = 0 by omega)] at hlo
      exact hlo _ rfl
    rcases Nat.lt_or_ge i (pos - 1) with h | h
    · exact o.trans (hn.keys.typed _ (by omega)) (hn.keys.typed _ (by omega)) hk
        (hn.keys.sorted _ _ h (by omega)) hlast
    · rwa [show i = pos - 1 by omega]
  · intro i hpi hin
    have hfirst : key.lt (n.keys pos) = true := by
      simp only [kidSlot, if_neg (show ¬ pos = n.numKeys by omega)] at hhi
      exact hhi _ rfl
    rcases Nat.eq_or_lt_of_le hpi with rfl | h
    · exact hfirst
    · exact o.trans hk (hn.keys.typed _ (by omega)) (hn.keys.typed _ hin) hfirst
        (hn.keys.sorted _ _ h hin)

/-- The whole interval holds what a child's interval holds. -/
theorem InnerNode.within (o : WeakOrderOn P Value.lt Value.eq)
    (hn : InnerNode P n lo hi) {pos : Nat} {key : Value} (hk : P key)
    (hpos : pos ≤ n.numKeys) (hlo : Above (kidSlot n lo hi pos).lo key)
    (hhi : Below (kidSlot n lo hi pos).hi key) : Above lo key ∧ Below hi key := by
  obtain ⟨hl, hr⟩ := hn.lt_of_kid o hk hpos hlo hhi
  constructor
  · intro b hb
    by_cases h0 : pos = 0
    · subst h0
      exact hlo b (by simpa [kidSlot] using hb)
    · exact o.trans (hn.bounds.lo b hb) (hn.keys.typed 0 (by omega)) hk
        (hn.lo 0 (by omega) b hb) (hl 0 (by omega))
  · intro b hb
    by_cases h0 : pos = n.numKeys
    · exact hhi b (by simpa [kidSlot, h0] using hb)
    · exact o.trans hk (hn.keys.typed pos (by omega)) (hn.bounds.hi b hb)
        (hr pos (Nat.le_refl _) (by omega)) (hn.hi pos (by omega) b hb)

/-- Growing keeps an internal node well-formed. -/
theorem InnerNode.grown (o : WeakOrderOn P Value.lt Value.eq)
    (hn : InnerNode P n lo hi) {pos : Nat} {key : Value} {y : NodeId} (hk : P key)
    (hpos : pos ≤ n.numKeys) (hlo : Above (kidSlot n lo hi pos).lo key)
    (hhi : Below (kidSlot n lo hi pos).hi key) :
    InnerNode P (grown n pos key y) lo hi := by
  obtain ⟨hl, hr⟩ := hn.lt_of_kid o hk hpos hlo hhi
  obtain ⟨hwl, hwr⟩ := hn.within o hk hpos hlo hhi
  refine ⟨hn.inner, hn.keys.opened hk hpos hl hr rfl rfl, hn.bounds,
    forall_openAt hpos hn.lo hwl, forall_openAt hpos hn.hi hwr, ?_⟩
  intro i hin
  rw [grown_numKeys] at hin
  rcases Nat.lt_trichotomy i (pos + 1) with h | h | h
  · rw [childId, grown_children_le (by omega)]
    exact hn.kid i (by omega)
  · rw [childId, h, grown_children_self]
    rfl
  · obtain ⟨j, rfl⟩ : ∃ j, i = j + 1 := ⟨i - 1, by omega⟩
    rw [childId, grown_children_succ (by omega) (by omega)]
    exact hn.kid j (by omega)

/-- The lower half of a split internal node. -/
theorem InnerNode.left {left : Node} {mid : Nat} (hn : InnerNode P n lo hi)
    (hmid : mid < n.numKeys) (hleaf : left.isLeaf = false) (hln : left.numKeys = mid)
    (hlk : ∀ i, i ≤ mid → left.keys i = n.keys i)
    (hlc : ∀ i, i ≤ mid → left.children i = n.children i) :
    InnerNode P left lo (some (n.keys mid)) := by
  refine ⟨hleaf, ⟨?_, ?_⟩, ⟨hn.bounds.lo, ?_⟩, ?_, ?_, ?_⟩
  · intro i j hij hj
    rw [hlk i (by omega), hlk j (by omega)]
    exact hn.keys.sorted _ _ hij (by omega)
  · intro i hi'
    rw [hlk i (by omega)]
    exact hn.keys.typed _ (by omega)
  · intro b hb
    rw [← Option.some.inj hb]
    exact hn.keys.typed _ hmid
  · intro i hi'
    rw [hlk i (by omega)]
    exact hn.lo _ (by omega)
  · intro i hi'
    rw [hlk i (by omega), below_some]
    exact hn.keys.sorted _ _ (by omega) hmid
  · intro i hi'
    rw [childId, hlc i (by omega)]
    exact hn.kid i (by omega)

/-- The upper half of a split internal node. -/
theorem InnerNode.right {right : Node} {mid : Nat} (hn : InnerNode P n lo hi)
    (hmid : mid < n.numKeys) (hleaf : right.isLeaf = false)
    (hrn : right.numKeys = n.numKeys - mid - 1)
    (hrk : ∀ i, i < right.numKeys → right.keys i = n.keys (mid + 1 + i))
    (hrc : ∀ i, i ≤ right.numKeys → right.children i = n.children (mid + 1 + i)) :
    InnerNode P right (some (n.keys mid)) hi := by
  refine ⟨hleaf, ⟨?_, ?_⟩, ⟨?_, hn.bounds.hi⟩, ?_, ?_, ?_⟩
  · intro i j hij hj
    rw [hrk i (by omega), hrk j (by omega)]
    exact hn.keys.sorted _ _ (by omega) (by omega)
  · intro i hi'
    rw [hrk i hi']
    exact hn.keys.typed _ (by omega)
  · intro b hb
    rw [← Option.some.inj hb]
    exact hn.keys.typed _ hmid
  · intro i hi'
    rw [hrk i hi', above_some]
    exact hn.keys.sorted _ _ (by omega) (by omega)
  · intro i hi'
    rw [hrk i hi']
    exact hn.hi _ (by omega)
  · intro i hi'
    rw [childId, hrc i hi']
    exact hn.kid _ (by omega)

end Nodes

end FlexQL.Proofs
