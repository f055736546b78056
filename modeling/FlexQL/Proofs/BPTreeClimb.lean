import FlexQL.Proofs.BPTreeShape
import Mathlib.Data.List.Nodup

/-!
# A split climbs to the root

`insert_into_parent` and `split_internal` call each other up the tree. The
statement carried by the induction is about the moment between a split and
the parent learning of it: the levels above are those of the old tree, one
node `s.id` of the level below has given its upper part to a node `y` the
tree does not hold yet, and `key` separates the two. Afterwards there is a
tower over the level with that slot split, and `Climb` says that nothing but
the levels above and the parent pointers of the level itself has changed.
-/

namespace FlexQL.Proofs

open Lib FlexQL.Ref FlexQL.Spec

/-- Point the nodes of a list at a new parent. -/
def reparent (h : Heap Node) (self : NodeId) (l : List NodeId) : Heap Node :=
  { h with cell := fun q =>
      if q ∈ l then { h.cell q with parent := some self } else h.cell q }

@[simp] theorem reparent_size (h : Heap Node) (self : NodeId) (l : List NodeId) :
    (reparent h self l).size = h.size := rfl

theorem reparent_of_mem {h : Heap Node} {self q : NodeId} {l : List NodeId}
    (hq : q ∈ l) : (reparent h self l).cell q = { h.cell q with parent := some self } :=
  if_pos hq

theorem reparent_of_notMem {h : Heap Node} {self q : NodeId} {l : List NodeId}
    (hq : q ∉ l) : (reparent h self l).cell q = h.cell q := if_neg hq

theorem reparent_put (h : Heap Node) (self p : NodeId) (l : List NodeId) :
    reparent (h.put p { h.cell p with parent := some self }) self l
      = reparent h self (p :: l) := by
  simp only [reparent, Heap.put, Heap.mk.injEq, true_and]
  funext q
  by_cases hqp : q = p
  · subst hqp
    simp
  · simp [hqp]

theorem moveChildren_spec (src : Node) (mid : Nat) (self : NodeId) :
    ∀ (count i : Nat) (h : Heap Node) (dst : Node), mid + 1 + i + count ≤ bptreeOrder + 1 →
      (∀ j, j < count → src.children (mid + 1 + i + j) = some (childId src (mid + 1 + i + j))
        ∧ childId src (mid + 1 + i + j) < h.size) →
      BPTree.moveChildren src mid self count i h dst = .ok
        (reparent h self (firstN (fun j => childId src (mid + 1 + i + j)) count),
          { dst with children := fun j =>
              if i ≤ j ∧ j < i + count then src.children (mid + 1 + j)
              else dst.children j }) := by
  intro count
  induction count with
  | zero =>
      intro i h dst _ _
      have hno : ∀ j, ¬ (i ≤ j ∧ j < i + 0) := by omega
      simp only [BPTree.moveChildren, firstN_zero, hno, if_false, reparent, List.not_mem_nil]
  | succ count ih =>
      intro i h dst hcap hsome
      obtain ⟨hc, hsz⟩ := hsome 0 (by omega)
      rw [Nat.add_zero] at hc hsz
      rw [BPTree.moveChildren]
      simp only [Node.child_of_le (show mid + 1 + i ≤ bptreeOrder by omega), hc,
        Node.setChild_of_le (show i ≤ bptreeOrder by omega), Outcome.bind_ok,
        Heap.get_of_lt hsz]
      rw [ih (i + 1) _ _ (by omega), reparent_put]
      · congr 2
        · rw [firstN_cons]
          congr 2
          refine firstN_congr fun j _ => ?_
          congr 1
          omega
        · simp only [setAt, Node.mk.injEq, true_and, and_true]
          funext j
          repeat' split
          all_goals first | rfl | omega | (rw [← hc]; congr 1; omega)
      · intro j hj
        obtain ⟨h₁, h₂⟩ := hsome (j + 1) (by omega)
        rw [show mid + 1 + (i + 1) + j = mid + 1 + i + (j + 1) by omega]
        exact ⟨h₁, h₂⟩

/-! ## Towers under change -/

section Towers

variable {P : Value → Prop}

/-- A tower reads the nodes above its base, and of the base only the parent
pointers and whether the nodes are half full. -/
theorem Tower.congr {h h' : Heap Node} {r : NodeId} : ∀ {us : List (List Slot)}
    {l : List Slot}, Tower P h r l us →
    (∀ q ∈ ids us.flatten, h'.cell q = h.cell q) →
    (∀ q ∈ ids l, (h'.cell q).parent = (h.cell q).parent) →
    (us ≠ [] → ∀ q ∈ ids l, BPTree.minKeys ≤ (h'.cell q).numKeys) →
    Tower P h' r l us := by
  intro us
  induction us with
  | nil =>
      intro l ht _ hp _
      obtain ⟨rfl, hr⟩ := ht
      exact ⟨rfl, by rw [hp r (by simp [ids]), hr]⟩
  | cons u us ih =>
      intro l ht hc hp hf
      obtain ⟨rfl, hin, _, hup⟩ := ht
      have hcu : ∀ s ∈ u, h'.cell s.id = h.cell s.id := fun s hs =>
        hc s.id (by simp only [List.flatten_cons, ids_append, List.mem_append]
                    exact .inl (mem_ids.mpr ⟨s, hs, rfl⟩))
      have hslots : ∀ s ∈ u, kidSlots h' s = kidSlots h s := fun s hs => by
        rw [kidSlots, kidSlots, hcu s hs]
      refine ⟨List.flatMap_congr fun s hs => hslots s hs, ?_, ?_, ?_⟩
      · intro s hs
        obtain ⟨hn, hpos, hcap, hpar⟩ := hin s hs
        refine ⟨by rw [hcu s hs]; exact hn, by rw [hcu s hs]; exact hpos,
          by rw [hcu s hs]; exact hcap, ?_⟩
        intro c hcm
        rw [hslots s hs] at hcm
        rw [hp c.id (mem_ids.mpr ⟨c, List.mem_flatMap.mpr ⟨s, hs, hcm⟩, rfl⟩)]
        exact hpar c hcm
      · intro s hs
        exact hf (by simp) s.id (mem_ids.mpr ⟨s, hs, rfl⟩)
      · have hid : ∀ q ∈ ids u, h'.cell q = h.cell q := by
          intro q hq
          obtain ⟨s, hs, rfl⟩ := mem_ids.mp hq
          exact hcu s hs
        refine ih hup (fun q hq => hc q (by simp [ids_append] at hq ⊢; exact .inr hq))
          (fun q hq => by rw [hid q hq]) ?_
        intro hne q hq
        rw [hid q hq]
        cases us with
        | nil => exact absurd rfl hne
        | cons u' us' =>
            obtain ⟨s, hs, rfl⟩ := mem_ids.mp hq
            exact hup.2.2.1 s hs

/-- The root is on the top level. -/
theorem Tower.root_mem {h : Heap Node} {r : NodeId} : ∀ {us : List (List Slot)}
    {l : List Slot}, Tower P h r l us → us ≠ [] → r ∈ ids us.flatten := by
  intro us
  induction us with
  | nil => intro l _ hne; exact absurd rfl hne
  | cons u us ih =>
      intro l ht _
      obtain ⟨_, _, _, hup⟩ := ht
      cases us with
      | nil =>
          obtain ⟨rfl, _⟩ := hup
          simp [ids]
      | cons u' us' =>
          have := ih hup (by simp)
          simp only [List.flatten_cons, ids_append, List.mem_append] at this ⊢
          exact .inr this

/-- Every slot of a tower has comparable bounds. -/
theorem Tower.bounds {h : Heap Node} {r : NodeId} {l : List Slot}
    {us : List (List Slot)} (ht : Tower P h r l us) : ∀ s ∈ l, Bounds P s.lo s.hi := by
  cases us with
  | nil =>
      obtain ⟨rfl, _⟩ := ht
      intro s hs
      rw [List.mem_singleton] at hs
      subst hs
      exact ⟨fun b hb => absurd hb (by simp), fun b hb => absurd hb (by simp)⟩
  | cons u us =>
      obtain ⟨rfl, hin, _⟩ := ht
      intro s hs
      obtain ⟨p, hp, hsp⟩ := List.mem_flatMap.mp hs
      obtain ⟨i, hi, rfl⟩ := mem_slotsOf.mp hsp
      have hn := (hin p hp).node
      exact kidSlot_bounds hn.bounds hn.keys hi

end Towers

/-! ## Distinct nodes -/

section Distinct

variable {h : Heap Node}

theorem ids_flatMap (u : List Slot) (f : Slot → List Slot) :
    ids (u.flatMap f) = u.flatMap fun s => ids (f s) := by
  simp [ids, List.map_flatMap]

/-- The children of one node are distinct. -/
theorem childId_inj {u : List Slot} (hnd : (ids (u.flatMap (kidSlots h))).Nodup)
    {s : Slot} (hs : s ∈ u) {i j : Nat} (hi : i ≤ (h.cell s.id).numKeys)
    (hj : j ≤ (h.cell s.id).numKeys)
    (he : childId (h.cell s.id) i = childId (h.cell s.id) j) : i = j := by
  rw [ids_flatMap, List.nodup_flatMap] at hnd
  have hself := hnd.1 s hs
  rw [kidSlots, slotsOf, ids, firstN_map] at hself
  have hget : ∀ k, k ≤ (h.cell s.id).numKeys →
      (firstN (fun k => (kidSlot (h.cell s.id) s.lo s.hi k).id)
        ((h.cell s.id).numKeys + 1))[k]? = some (childId (h.cell s.id) k) := by
    intro k hk
    rw [firstN_getElem?, if_pos (by omega)]
    rfl
  exact (List.getElem?_inj (by simpa using Nat.lt_succ_of_le hi) hself).mp
    (by rw [hget i hi, hget j hj, he])

/-- Different nodes of a level have different children. -/
theorem kidSlots_disjoint {u : List Slot} (hnd : (ids (u.flatMap (kidSlots h))).Nodup)
    {s s' : Slot} (hs : s ∈ u) (hs' : s' ∈ u) {q : NodeId}
    (hq : q ∈ ids (kidSlots h s)) (hq' : q ∈ ids (kidSlots h s')) : s = s' := by
  rw [ids_flatMap, List.nodup_flatMap] at hnd
  by_contra hne
  have hsymm : Std.Symm (Function.onFun List.Disjoint fun s => ids (kidSlots h s)) :=
    ⟨fun _ _ hd => List.disjoint_comm.mp hd⟩
  exact hnd.2.forall hs hs' hne hq hq'

end Distinct

/-! ## The three steps as equations

Each step of the climb returns, and returns this heap. -/

section Steps

/-- The node `insert_into_parent` allocates when the root has split. -/
def rootNode (x : NodeId) (key : Value) (y : NodeId) : Node :=
  { Node.new false with
    keys := setAt (fun _ => default) 0 key
    children := setAt (setAt (fun _ => none) 0 (some x)) 1 (some y)
    numKeys := 1 }

def rootHeap (h : Heap Node) (x : NodeId) (key : Value) (y : NodeId) : Heap Node :=
  let h₁ := (h.alloc (rootNode x key y)).1
  let h₂ := h₁.put x { h₁.cell x with parent := some h.size }
  h₂.put y { h₂.cell y with parent := some h.size }

theorem insertIntoParent_root {t : BPTree} {x y : NodeId} {key : Value} (fuel : Nat)
    (hroot : t.root = some x) (hx : x < t.pool.size) (hy : y < t.pool.size) :
    BPTree.insertIntoParent (fuel + 1) t x key y = .ok
      { t with root := some t.pool.size, height := t.height + 1
               pool := rootHeap t.pool x key y } := by
  have hx' : x < (t.pool.alloc (rootNode x key y)).1.size := Nat.lt_succ_of_lt hx
  have hy' : y < (t.pool.alloc (rootNode x key y)).1.size := Nat.lt_succ_of_lt hy
  have hord : 1 < bptreeOrder := by decide
  rw [BPTree.insertIntoParent, if_pos hroot]
  simp only [Node.setKey_of_lt (show 0 < bptreeOrder by omega),
    Node.setChild_of_le (show 0 ≤ bptreeOrder by omega),
    Node.setChild_of_le (show 1 ≤ bptreeOrder by omega), Outcome.bind_ok]
  simp only [rootNode, Node.new] at hx' hy'
  simp only [Node.new, Heap.get_of_lt hx', Outcome.bind_ok]
  rw [Heap.get_of_lt (by exact hy')]
  rfl

/-- The heap after the parent `p` took `key` and `y` in at `pos`. -/
def growHeap (h : Heap Node) (p : NodeId) (pos : Nat) (key : Value) (y : NodeId) :
    Heap Node :=
  (h.put y { h.cell y with parent := some p }).put p (grown (h.cell p) pos key y)

/-- What the loop and the two assignments behind it make of the parent. -/
theorem grown_eq {n : Node} {pos : Nat} {key : Value} {y : NodeId} :
    ({ n with
      keys := setAt (fun i => if pos < i ∧ i ≤ n.numKeys then n.keys (i - 1)
        else n.keys i) pos key
      children := setAt (fun i => if pos + 1 < i ∧ i ≤ n.numKeys + 1 then n.children (i - 1)
        else n.children i) (pos + 1) (some y)
      numKeys := n.numKeys + 1 } : Node) = grown n pos key y := by
  simp only [grown, Node.mk.injEq, true_and, and_true]
  constructor <;> funext i <;> simp only [setAt, openAt] <;> repeat' split
  all_goals first | rfl | omega

theorem insertIntoParent_inner {t : BPTree} {x y p : NodeId} {key : Value} {pos : Nat}
    (fuel : Nat) (hroot : t.root ≠ some x) (hx : x < t.pool.size) (hy : y < t.pool.size)
    (hp : p < t.pool.size) (hpy : p ≠ y) (hpar : (t.pool.cell x).parent = some p)
    (hcap : (t.pool.cell p).numKeys < bptreeOrder)
    (hpos : pos ≤ (t.pool.cell p).numKeys)
    (hchild : (t.pool.cell p).children pos = some x)
    (hfirst : ∀ i, i < pos → (t.pool.cell p).children i ≠ some x) :
    BPTree.insertIntoParent (fuel + 1) t x key y =
      if bptreeOrder ≤ (t.pool.cell p).numKeys + 1 then
        BPTree.splitInternal fuel { t with pool := growHeap t.pool p pos key y } p
      else .ok { t with pool := growHeap t.pool p pos key y } := by
  have hcell : (t.pool.put y { t.pool.cell y with parent := some p }).cell p
      = t.pool.cell p := Heap.put_cell_ne _ _ hpy
  rw [BPTree.insertIntoParent, if_neg hroot]
  simp only [Heap.get_of_lt hx, Heap.get_of_lt hy, hpar, Outcome.bind_ok, deref]
  rw [Heap.get_of_lt (show p < (t.pool.put y _).size from hp), Outcome.bind_ok, hcell,
    childPos_spec hchild hfirst (by omega) _ 0 (Nat.zero_le _) (by omega),
    Outcome.bind_ok, shiftChildren_spec pos _ _ hcap hpos, Outcome.bind_ok,
    Node.setKey_of_lt (by omega), Outcome.bind_ok, Node.setChild_of_le (by omega),
    Outcome.bind_ok]
  simp only [grown_eq, Option.getD_some, growHeap]

/-- The upper half of a split internal node. -/
def upperHalf (n : Node) : Node :=
  { Node.new false with
    numKeys := n.numKeys - n.numKeys / 2 - 1
    keys := fun j => if j < n.numKeys - n.numKeys / 2 - 1
      then n.keys (n.numKeys / 2 + 1 + j) else default
    children := fun j => if j < n.numKeys - n.numKeys / 2 - 1 + 1
      then n.children (n.numKeys / 2 + 1 + j) else none }

/-- The children that move with it. -/
def movedKids (n : Node) : List NodeId :=
  firstN (fun j => childId n (n.numKeys / 2 + 1 + j)) (n.numKeys - n.numKeys / 2 - 1 + 1)

def splitHeap (h : Heap Node) (p : NodeId) : Heap Node :=
  let h₁ := reparent (h.alloc (Node.new false)).1 h.size (movedKids (h.cell p))
  (h₁.put p { h₁.cell p with numKeys := (h.cell p).numKeys / 2 }).put h.size
    (upperHalf (h.cell p))

theorem splitInternal_spec {t : BPTree} {p : NodeId} (fuel : Nat)
    (hp : p < t.pool.size) (hfull : (t.pool.cell p).numKeys = bptreeOrder)
    (hkids : ∀ i, i ≤ (t.pool.cell p).numKeys →
      (t.pool.cell p).children i = some (childId (t.pool.cell p) i) ∧
        childId (t.pool.cell p) i < t.pool.size) :
    BPTree.splitInternal (fuel + 1) t p =
      BPTree.insertIntoParent fuel { t with pool := splitHeap t.pool p } p
        ((t.pool.cell p).keys ((t.pool.cell p).numKeys / 2)) t.pool.size := by
  have hord : bptreeOrder = 256 := rfl
  have hp' : p < (t.pool.alloc (Node.new false)).1.size := Nat.lt_succ_of_lt hp
  have hcell : (t.pool.alloc (Node.new false)).1.cell p = t.pool.cell p :=
    Heap.alloc_cell_lt _ _ hp
  rw [BPTree.splitInternal]
  simp only [Heap.alloc_id, Heap.get_of_lt hp', hcell, Outcome.bind_ok]
  rw [Node.key_of_lt (by omega), Outcome.bind_ok, moveKeys_spec _ _ _ _ _ (by omega),
    Outcome.bind_ok, moveChildren_spec _ _ _ _ _ _ _ (by omega), Outcome.bind_ok]
  · simp only [Nat.add_zero, Nat.zero_le, true_and, Nat.zero_add]
    rw [Heap.get_of_lt (by rw [reparent_size]; exact hp'), Outcome.bind_ok]
    rfl
  · intro j hj
    obtain ⟨h₁, h₂⟩ := hkids ((t.pool.cell p).numKeys / 2 + 1 + 0 + j) (by omega)
    exact ⟨h₁, Nat.lt_succ_of_lt h₂⟩

end Steps

/-! ## What the heaps hold -/

section Cells

variable {h : Heap Node} {p x y q : NodeId} {key : Value} {pos : Nat}

@[simp] theorem growHeap_size : (growHeap h p pos key y).size = h.size := rfl

theorem growHeap_self : (growHeap h p pos key y).cell p = grown (h.cell p) pos key y :=
  Heap.put_cell_self ..

theorem growHeap_new (hpy : y ≠ p) :
    (growHeap h p pos key y).cell y = { h.cell y with parent := some p } := by
  rw [growHeap, Heap.put_cell_ne _ _ hpy, Heap.put_cell_self]

theorem growHeap_other (hqp : q ≠ p) (hqy : q ≠ y) :
    (growHeap h p pos key y).cell q = h.cell q := by
  rw [growHeap, Heap.put_cell_ne _ _ hqp, Heap.put_cell_ne _ _ hqy]

@[simp] theorem splitHeap_size : (splitHeap h p).size = h.size + 1 := rfl

theorem splitHeap_new : (splitHeap h p).cell h.size = upperHalf (h.cell p) :=
  Heap.put_cell_self ..

theorem splitHeap_self (hp : p < h.size) (hm : p ∉ movedKids (h.cell p)) :
    (splitHeap h p).cell p = { h.cell p with numKeys := (h.cell p).numKeys / 2 } := by
  rw [splitHeap, Heap.put_cell_ne _ _ (Nat.ne_of_lt hp), Heap.put_cell_self,
    reparent_of_notMem hm, Heap.alloc_cell_lt _ _ hp]

theorem splitHeap_moved (hq : q < h.size) (hqp : q ≠ p) (hm : q ∈ movedKids (h.cell p)) :
    (splitHeap h p).cell q = { h.cell q with parent := some h.size } := by
  rw [splitHeap, Heap.put_cell_ne _ _ (Nat.ne_of_lt hq), Heap.put_cell_ne _ _ hqp,
    reparent_of_mem hm, Heap.alloc_cell_lt _ _ hq]

theorem splitHeap_other (hq : q < h.size) (hqp : q ≠ p) (hm : q ∉ movedKids (h.cell p)) :
    (splitHeap h p).cell q = h.cell q := by
  rw [splitHeap, Heap.put_cell_ne _ _ (Nat.ne_of_lt hq), Heap.put_cell_ne _ _ hqp,
    reparent_of_notMem hm, Heap.alloc_cell_lt _ _ hq]

theorem rootHeap_size : (rootHeap h x key y).size = h.size + 1 := rfl

theorem rootHeap_root (hx : x < h.size) (hy : y < h.size) :
    (rootHeap h x key y).cell h.size = rootNode x key y := by
  rw [rootHeap, Heap.put_cell_ne _ _ (Nat.ne_of_gt hy), Heap.put_cell_ne _ _ (Nat.ne_of_gt hx),
    Heap.alloc_cell_self]

theorem rootHeap_kid (hx : x < h.size) (hy : y < h.size) (hq : q = x ∨ q = y) :
    (rootHeap h x key y).cell q = { h.cell q with parent := some h.size } := by
  by_cases hqy : q = y
  · subst hqy
    rw [rootHeap, Heap.put_cell_self]
    by_cases hqx : q = x
    · subst hqx
      rw [Heap.put_cell_self, Heap.alloc_cell_lt _ _ hy]
    · rw [Heap.put_cell_ne _ _ hqx, Heap.alloc_cell_lt _ _ hy]
  · obtain rfl : q = x := hq.resolve_right hqy
    rw [rootHeap, Heap.put_cell_ne _ _ hqy, Heap.put_cell_self, Heap.alloc_cell_lt _ _ hx]

theorem rootHeap_other (hq : q < h.size) (hqx : q ≠ x) (hqy : q ≠ y) :
    (rootHeap h x key y).cell q = h.cell q := by
  rw [rootHeap, Heap.put_cell_ne _ _ hqy, Heap.put_cell_ne _ _ hqx, Heap.alloc_cell_lt _ _ hq]

end Cells

/-! ## One level

What the tower says of a level of internal nodes and the level below it,
without the bound on the number of separators: it is broken between the two
halves of a step. -/

section Levels

variable {P : Value → Prop} {h h' : Heap Node} {u l : List Slot}

structure Level (P : Value → Prop) (h : Heap Node) (u l : List Slot) : Prop where
  kids : u.flatMap (kidSlots h) = l
  node : ∀ s ∈ u, InnerNode P (h.cell s.id) s.lo s.hi
  pos : ∀ s ∈ u, 0 < (h.cell s.id).numKeys
  parent : ∀ s ∈ u, ∀ c ∈ kidSlots h s, (h.cell c.id).parent = some s.id

theorem Tower.level {r : NodeId} {us : List (List Slot)} (ht : Tower P h r l (u :: us)) :
    Level P h u l :=
  ⟨ht.1, fun s hs => (ht.2.1 s hs).node, fun s hs => (ht.2.1 s hs).pos,
    fun s hs => (ht.2.1 s hs).parent⟩

theorem Level.inner (hl : Level P h u l)
    (hcap : ∀ s ∈ u, (h.cell s.id).numKeys < bptreeOrder) : ∀ s ∈ u, InnerOK P h s :=
  fun s hs => ⟨hl.node s hs, hl.pos s hs, hcap s hs, hl.parent s hs⟩

theorem Level.mem_ids (hl : Level P h u l) {s : Slot} (hs : s ∈ u) {q : NodeId}
    (hq : q ∈ ids (kidSlots h s)) : q ∈ ids l := by
  rw [← hl.kids, ids_flatMap]
  exact List.mem_flatMap.mpr ⟨s, hs, hq⟩

/-- New parent pointers on the upper level do not matter to a level. -/
theorem Level.congr (hl : Level P h u l)
    (hu : ∀ q ∈ ids u, ∃ p, h'.cell q = { h.cell q with parent := p })
    (hb : ∀ q ∈ ids l, h'.cell q = h.cell q) : Level P h' u l := by
  have hcell : ∀ s ∈ u, ∃ p, h'.cell s.id = { h.cell s.id with parent := p } :=
    fun s hs => hu s.id (Proofs.mem_ids.mpr ⟨s, hs, rfl⟩)
  have hslots : ∀ s ∈ u, kidSlots h' s = kidSlots h s := by
    intro s hs
    obtain ⟨p, hp⟩ := hcell s hs
    rw [kidSlots, hp]
    rfl
  refine ⟨by rw [List.flatMap_congr hslots, hl.kids], ?_, ?_, ?_⟩
  · intro s hs
    obtain ⟨p, hp⟩ := hcell s hs
    rw [hp]
    exact ⟨(hl.node s hs).inner, ⟨(hl.node s hs).keys.sorted, (hl.node s hs).keys.typed⟩,
      (hl.node s hs).bounds, (hl.node s hs).lo, (hl.node s hs).hi, (hl.node s hs).kid⟩
  · intro s hs
    obtain ⟨p, hp⟩ := hcell s hs
    rw [hp]
    exact hl.pos s hs
  · intro s hs c hc
    rw [hslots s hs] at hc
    rw [hb c.id (hl.mem_ids hs (Proofs.mem_ids.mpr ⟨c, hc, rfl⟩))]
    exact hl.parent s hs c hc

theorem eq_of_id (hnd : (ids u).Nodup) {s s' : Slot} (hs : s ∈ u) (hs' : s' ∈ u)
    (he : s.id = s'.id) : s = s' :=
  List.inj_on_of_nodup_map hnd hs hs' he

theorem splitLevel_flatMap (x y : NodeId) (key : Value) (f : Slot → List Slot) :
    splitLevel x key y (u.flatMap f) = u.flatMap fun s => splitLevel x key y (f s) := by
  simp [splitLevel, List.flatMap_assoc]

/-- The parent takes the new child in: below it, the child's slot is split. -/
theorem Level.grow (o : WeakOrderOn P Value.lt Value.eq) (hl : Level P h u l)
    (hnd : (ids (l ++ u)).Nodup) {sp : Slot} (hsp : sp ∈ u) {pos : Nat} {x y : NodeId}
    {key : Value} (hpos : pos ≤ (h.cell sp.id).numKeys)
    (hx : childId (h.cell sp.id) pos = x) (hy : y ∉ ids (l ++ u)) (hk : P key)
    (hlo : Above (kidSlot (h.cell sp.id) sp.lo sp.hi pos).lo key)
    (hhi : Below (kidSlot (h.cell sp.id) sp.lo sp.hi pos).hi key) :
    Level P (growHeap h sp.id pos key y) u (splitLevel x key y l) := by
  simp only [ids_append, List.nodup_append', List.mem_append, not_or] at hnd hy
  obtain ⟨hndl, hndu, hdis⟩ := hnd
  have hnd' : (ids (u.flatMap (kidSlots h))).Nodup := by rw [hl.kids]; exact hndl
  have hidu : ∀ s ∈ u, s.id ∈ ids u := fun s hs => Proofs.mem_ids.mpr ⟨s, hs, rfl⟩
  have hxk : x ∈ ids (kidSlots h sp) :=
    Proofs.mem_ids.mpr ⟨_, mem_slotsOf.mpr ⟨pos, hpos, rfl⟩, hx⟩
  have hother : ∀ s ∈ u, s ≠ sp → (growHeap h sp.id pos key y).cell s.id = h.cell s.id :=
    fun s hs hne => growHeap_other (fun he => hne (eq_of_id hndu hs hsp he))
      (fun he => hy.2 (he ▸ hidu s hs))
  have hslots : ∀ s ∈ u,
      kidSlots (growHeap h sp.id pos key y) s = splitLevel x key y (kidSlots h s) := by
    intro s hs
    by_cases hne : s = sp
    · subst hne
      rw [kidSlots, growHeap_self, kidSlots]
      exact slotsOf_grown _ _ hpos hx fun i hi hip he =>
        hip (childId_inj hnd' hs hi hpos (he.trans hx.symm))
    · rw [kidSlots, hother s hs hne, splitLevel_of_notMem]
      · rfl
      · exact fun hm => hne (kidSlots_disjoint hnd' hs hsp hm hxk)
  refine ⟨?_, ?_, ?_, ?_⟩
  · rw [List.flatMap_congr hslots, ← hl.kids, splitLevel_flatMap]
  · intro s hs
    by_cases hne : s = sp
    · subst hne
      rw [growHeap_self]
      exact (hl.node s hs).grown o hk hpos hlo hhi
    · rw [hother s hs hne]
      exact hl.node s hs
  · intro s hs
    by_cases hne : s = sp
    · subst hne
      rw [growHeap_self]
      exact Nat.succ_pos _
    · rw [hother s hs hne]
      exact hl.pos s hs
  · intro s hs c hc
    rw [hslots s hs] at hc
    -- an old child keeps its parent, and the new one gets it
    have hold : ∀ c₀ ∈ kidSlots h s,
        ((growHeap h sp.id pos key y).cell c₀.id).parent = some s.id := by
      intro c₀ hc₀
      have hm : c₀.id ∈ ids l := hl.mem_ids hs (Proofs.mem_ids.mpr ⟨c₀, hc₀, rfl⟩)
      have hcp : c₀.id ≠ sp.id := fun he => hdis (he ▸ hm) (hidu sp hsp)
      have hcy : c₀.id ≠ y := fun he => hy.1 (he ▸ hm)
      rw [growHeap_other hcp hcy]
      exact hl.parent s hs c₀ hc₀
    rcases mem_splitLevel hc with ⟨hc, _⟩ | ⟨c₀, hc₀, hcx, rfl | rfl⟩
    · exact hold c hc
    · rw [← hcx]
      exact hold c₀ hc₀
    · obtain rfl : s = sp := kidSlots_disjoint hnd' hs hsp
        (Proofs.mem_ids.mpr ⟨c₀, hc₀, hcx⟩) hxk
      have hys : y ≠ s.id := fun he => hy.2 (he ▸ hidu s hs)
      rw [growHeap_new hys]

theorem mem_movedKids {n : Node} {q : NodeId} (hn : 0 < n.numKeys) :
    q ∈ movedKids n ↔ ∃ i, n.numKeys / 2 < i ∧ i ≤ n.numKeys ∧ childId n i = q := by
  simp only [movedKids, mem_firstN]
  constructor
  · rintro ⟨j, hj, rfl⟩
    exact ⟨n.numKeys / 2 + 1 + j, by omega, by omega, rfl⟩
  · rintro ⟨i, hi, hin, rfl⟩
    exact ⟨i - (n.numKeys / 2 + 1), by omega, by congr 1; omega⟩

theorem upperHalf_keys {n : Node} {i : Nat} (hi : i < (upperHalf n).numKeys) :
    (upperHalf n).keys i = n.keys (n.numKeys / 2 + 1 + i) := if_pos hi

theorem upperHalf_children {n : Node} {i : Nat} (hi : i ≤ (upperHalf n).numKeys) :
    (upperHalf n).children i = n.children (n.numKeys / 2 + 1 + i) :=
  if_pos (Nat.lt_succ_of_le hi)

/-- The full node splits: the level below it is as before. -/
theorem Level.split (hl : Level P h u l) (hnd : (ids (l ++ u)).Nodup)
    (hal : ∀ q ∈ ids (l ++ u), q < h.size) {sp : Slot} (hsp : sp ∈ u)
    (hfull : 2 < (h.cell sp.id).numKeys) :
    Level P (splitHeap h sp.id) (splitLevel sp.id
      ((h.cell sp.id).keys ((h.cell sp.id).numKeys / 2)) h.size u) l := by
  simp only [ids_append, List.nodup_append', List.mem_append] at hnd hal
  obtain ⟨hndl, hndu, hdis⟩ := hnd
  have hnd' : (ids (u.flatMap (kidSlots h))).Nodup := by rw [hl.kids]; exact hndl
  have hidu : ∀ s ∈ u, s.id ∈ ids u := fun s hs => Proofs.mem_ids.mpr ⟨s, hs, rfl⟩
  have hsz : sp.id < h.size := hal sp.id (.inr (hidu sp hsp))
  set n := h.cell sp.id with hn
  have hmoved : ∀ q, q ∈ movedKids n → q ∈ ids (kidSlots h sp) := by
    intro q hq
    obtain ⟨i, _, hi, rfl⟩ := (mem_movedKids (by omega)).mp hq
    exact Proofs.mem_ids.mpr ⟨_, mem_slotsOf.mpr ⟨i, hi, rfl⟩, rfl⟩
  have hnot : ∀ s ∈ u, s.id ∉ movedKids n := fun s hs hm =>
    hdis (hl.mem_ids hsp (hmoved _ hm)) (hidu s hs)
  have hself : (splitHeap h sp.id).cell sp.id = { n with numKeys := n.numKeys / 2 } :=
    splitHeap_self hsz (hnot sp hsp)
  have hnew : (splitHeap h sp.id).cell h.size = upperHalf n := splitHeap_new
  have hother : ∀ s ∈ u, s.id ≠ sp.id → (splitHeap h sp.id).cell s.id = h.cell s.id :=
    fun s hs hne => splitHeap_other (hal _ (.inr (hidu s hs))) hne (hnot s hs)
  have hmid : n.numKeys / 2 < n.numKeys := by omega
  have hkid : ∀ q, q ∈ ids l → q < h.size ∧ q ≠ sp.id := fun q hc =>
    ⟨hal _ (.inl hc), fun he => hdis (he ▸ hc) (hidu sp hsp)⟩
  refine ⟨?_, ?_, ?_, ?_⟩
  · rw [splitLevel, List.flatMap_assoc, ← hl.kids]
    refine List.flatMap_congr fun s hs => ?_
    by_cases hne : s.id = sp.id
    · obtain rfl : s = sp := eq_of_id hndu hs hsp hne
      simp only [splitSlot, if_true, List.flatMap_cons, List.flatMap_nil, List.append_nil,
        kidSlots, hself, hnew]
      exact slotsOf_halves _ _ hmid rfl (fun _ _ => rfl) (fun _ _ => rfl) rfl
        (fun i hi => upperHalf_keys hi) (fun i hi => upperHalf_children hi)
    · simp only [splitSlot, if_neg hne, List.flatMap_cons, List.flatMap_nil, List.append_nil,
        kidSlots, hother s hs hne]
  · intro s hs
    rcases mem_splitLevel hs with ⟨hs, hne⟩ | ⟨s₀, hs₀, hx, rfl | rfl⟩
    · rw [hother s hs hne]
      exact hl.node s hs
    · obtain rfl : s₀ = sp := eq_of_id hndu hs₀ hsp hx
      rw [hself]
      exact (hl.node s₀ hs₀).left hmid (hl.node s₀ hs₀).inner rfl (fun _ _ => rfl)
        (fun _ _ => rfl)
    · obtain rfl : s₀ = sp := eq_of_id hndu hs₀ hsp hx
      rw [hnew]
      exact (hl.node s₀ hs₀).right hmid rfl rfl (fun i hi => upperHalf_keys hi)
        (fun i hi => upperHalf_children hi)
  · intro s hs
    rcases mem_splitLevel hs with ⟨hs, hne⟩ | ⟨s₀, hs₀, hx, rfl | rfl⟩
    · rw [hother s hs hne]
      exact hl.pos s hs
    · rw [hself]
      show 0 < n.numKeys / 2
      omega
    · rw [hnew]
      show 0 < n.numKeys - n.numKeys / 2 - 1
      omega
  · intro s hs c hc
    rcases mem_splitLevel hs with ⟨hs, hne⟩ | ⟨s₀, hs₀, hx, rfl | rfl⟩
    · rw [kidSlots, hother s hs hne] at hc
      have hm : c.id ∈ ids (kidSlots h s) := Proofs.mem_ids.mpr ⟨c, hc, rfl⟩
      obtain ⟨hlt, hcp⟩ := hkid _ (hl.mem_ids hs hm)
      rw [splitHeap_other hlt hcp fun hmv =>
        hne (congrArg Slot.id (kidSlots_disjoint hnd' hs hsp hm (hmoved _ hmv)))]
      exact hl.parent s hs c hc
    · rw [kidSlots, hself] at hc
      obtain ⟨i, hi, rfl⟩ := mem_slotsOf.mp hc
      have hi' : i ≤ n.numKeys / 2 := hi
      have hm : kidSlot n sp.lo sp.hi i ∈ kidSlots h sp :=
        mem_slotsOf.mpr ⟨i, show i ≤ n.numKeys by omega, rfl⟩
      obtain ⟨hlt, hcp⟩ : childId n i < h.size ∧ childId n i ≠ sp.id :=
        hkid _ (hl.mem_ids hsp (Proofs.mem_ids.mpr ⟨_, hm, rfl⟩))
      have hstay : childId n i ∉ movedKids n := by
        intro hmv
        obtain ⟨j, hj, hjn, he⟩ := (mem_movedKids (by omega)).mp hmv
        have := childId_inj hnd' hsp hjn (show i ≤ n.numKeys by omega) he
        omega
      rw [kidSlot_id]
      show ((splitHeap h sp.id).cell (childId n i)).parent = _
      rw [splitHeap_other hlt hcp hstay]
      exact hl.parent sp hsp _ hm
    · rw [kidSlots, hnew] at hc
      obtain ⟨i, hi, rfl⟩ := mem_slotsOf.mp hc
      have hi' : i ≤ n.numKeys - n.numKeys / 2 - 1 := hi
      have he : childId (upperHalf n) i = childId n (n.numKeys / 2 + 1 + i) := by
        rw [childId, upperHalf_children hi, childId]
      have hmv : childId n (n.numKeys / 2 + 1 + i) ∈ movedKids n :=
        (mem_movedKids (by omega)).mpr ⟨_, by omega, by omega, rfl⟩
      obtain ⟨hlt, hcp⟩ := hkid _ (hl.mem_ids hsp (hmoved _ hmv))
      rw [kidSlot_id, he, splitHeap_moved hlt hcp hmv]

end Levels

/-! ## The climb -/

section Climb

variable {P : Value → Prop}

/-- The moment between a split of the node of `s` and the parent learning of
the new node `y`. -/
structure Pending (P : Value → Prop) (t : BPTree) (r : NodeId) (l : List Slot)
    (us : List (List Slot)) (s : Slot) (key : Value) (y : NodeId) : Prop where
  root : t.root = some r
  tower : Tower P t.pool r l us
  nodup : (ids (l ++ us.flatten)).Nodup
  alloc : ∀ q ∈ ids (l ++ us.flatten), q < t.pool.size
  mem : s ∈ l
  new : y ∉ ids (l ++ us.flatten)
  newAlloc : y < t.pool.size
  lo : Above s.lo key
  hi : Below s.hi key
  typed : P key
  left : BPTree.minKeys ≤ (t.pool.cell s.id).numKeys
  right : BPTree.minKeys ≤ (t.pool.cell y).numKeys

/-- The climb changed nothing but the levels `us` above `l`, which it turned
into `us'`, and the parent pointers of `l`. -/
structure Climb (P : Value → Prop) (t t' : BPTree) (l : List Slot)
    (us us' : List (List Slot)) : Prop where
  tower : ∃ r, t'.root = some r ∧ Tower P t'.pool r l us'
  grows : t.pool.size ≤ t'.pool.size
  frame : ∀ q, q < t.pool.size → q ∉ ids l → q ∉ ids us.flatten →
    t'.pool.cell q = t.pool.cell q
  body : ∀ q ∈ ids l, ∃ p, t'.pool.cell q = { t.pool.cell q with parent := p }
  fresh : ∀ q ∈ ids us'.flatten, q ∈ ids us.flatten ∨ t.pool.size ≤ q
  nodup : (ids us'.flatten).Nodup
  alloc : ∀ q ∈ ids us'.flatten, q < t'.pool.size
  keyType : t'.keyType = t.keyType
  leftmost : t'.leftmostLeaf = t.leftmostLeaf
  size : t'.size = t.size
  height : t'.height + us.length = t.height + us'.length

variable {t t' : BPTree} {r y : NodeId} {l : List Slot} {us us' : List (List Slot)}
  {s : Slot} {key : Value}

theorem Pending.mem_split (hp : Pending P t r l us s key y) {q : NodeId}
    (hq : q ∈ ids (splitLevel s.id key y l)) : q < t.pool.size ∧ q ∉ ids us.flatten := by
  obtain ⟨_, _, hdis⟩ := List.nodup_append'.mp (ids_append .. ▸ hp.nodup)
  have hnew := hp.new
  have hal := hp.alloc
  simp only [ids_append, List.mem_append, not_or] at hnew hal
  rcases mem_ids_splitLevel hq with h | rfl
  · exact ⟨hal q (.inl h), fun h' => hdis h h'⟩
  · exact ⟨hp.newAlloc, hnew.2⟩

theorem Climb.nodup_all (hp : Pending P t r l us s key y)
    (hc : Climb P t t' (splitLevel s.id key y l) us us') :
    (ids (splitLevel s.id key y l ++ us'.flatten)).Nodup := by
  rw [ids_append, List.nodup_append']
  have hnew := hp.new
  simp only [ids_append, List.mem_append, not_or] at hnew
  refine ⟨splitLevel_nodup (List.nodup_append'.mp (ids_append .. ▸ hp.nodup)).1 hnew.1,
    hc.nodup, ?_⟩
  intro q hq hq'
  obtain ⟨hlt, hnot⟩ := hp.mem_split hq
  rcases hc.fresh q hq' with h | h
  · exact hnot h
  · exact absurd hlt (Nat.not_lt.mpr h)

/-- Both halves of the split node, and every other node of the level, are half
full in a heap that has only changed their parents. -/
theorem Pending.half (hp : Pending P t r l us s key y) {h' : Heap Node}
    (hbody : ∀ q ∈ ids (splitLevel s.id key y l),
      ∃ p, h'.cell q = { t.pool.cell q with parent := p }) :
    ∀ c ∈ splitLevel s.id key y l, BPTree.minKeys ≤ (h'.cell c.id).numKeys := by
  intro c hc
  obtain ⟨p, hcell⟩ := hbody c.id (mem_ids.mpr ⟨c, hc, rfl⟩)
  rw [hcell]
  show BPTree.minKeys ≤ (t.pool.cell c.id).numKeys
  rcases mem_splitLevel hc with ⟨hcl, hne⟩ | ⟨s₀, hs₀, hx, rfl | rfl⟩
  · cases us with
    | nil =>
        obtain ⟨rfl, _⟩ := hp.tower
        have := hp.mem
        rw [List.mem_singleton] at hcl this
        exact absurd (by rw [hcl, this]) hne
    | cons u us => exact hp.tower.2.2.1 c hcl
  · exact hp.left
  · exact hp.right

theorem rootNode_inner {x : NodeId} (hk : P key) :
    InnerNode P (rootNode x key y) none none := by
  refine ⟨rfl, ⟨?_, ?_⟩, ⟨by simp, by simp⟩, by simp [Above], by simp [Below], ?_⟩
  · intro i j hij hj
    exact absurd (show j < 1 from hj) (by omega)
  · intro i hi
    obtain rfl : i = 0 := Nat.lt_one_iff.mp hi
    exact hk
  · intro i hi
    obtain rfl | rfl : i = 0 ∨ i = 1 := Nat.le_one_iff_eq_zero_or_eq_one.mp hi
    · rfl
    · rfl

/-- The root has split: the tree grows by a level. -/
theorem insertIntoParent_top (hp : Pending P t r l [] s key y) (fuel : Nat) :
    ∃ t' us', BPTree.insertIntoParent (fuel + 1) t s.id key y = .ok t' ∧
      Climb P t t' (splitLevel s.id key y l) [] us' := by
  obtain ⟨rfl, _⟩ := hp.tower
  obtain rfl : s = ⟨r, none, none⟩ := List.mem_singleton.mp hp.mem
  have hr : r < t.pool.size := hp.alloc r (by simp [ids])
  have hy := hp.newAlloc
  have hlvl : splitLevel r key y [⟨r, none, none⟩]
      = [⟨r, none, some key⟩, ⟨y, some key, none⟩] := by
    simp [splitLevel, splitSlot]
  have hid : ∀ q, q ∈ ids (splitLevel r key y [⟨r, none, none⟩]) ↔ q = r ∨ q = y := by
    simp [hlvl, ids]
  have hbody : ∀ q ∈ ids (splitLevel r key y [⟨r, none, none⟩]), ∃ p,
      (rootHeap t.pool r key y).cell q = { t.pool.cell q with parent := p } :=
    fun q hq => ⟨_, rootHeap_kid hr hy ((hid q).mp hq)⟩
  have hroot : (rootHeap t.pool r key y).cell t.pool.size = rootNode r key y :=
    rootHeap_root hr hy
  have hkids : kidSlots (rootHeap t.pool r key y) ⟨t.pool.size, none, none⟩
      = splitLevel r key y [⟨r, none, none⟩] := by
    rw [kidSlots, hroot, hlvl]
    rfl
  refine ⟨_, [[⟨t.pool.size, none, none⟩]], insertIntoParent_root fuel hp.root hr hy, ?_⟩
  refine ⟨⟨t.pool.size, rfl, ?_, ?_, hp.half hbody, rfl, ?_⟩, Nat.le_succ _, ?_, hbody,
    ?_, ?_, ?_, rfl, rfl, rfl, rfl⟩
  · simpa using hkids
  · intro c hc
    obtain rfl := List.mem_singleton.mp hc
    refine ⟨hroot ▸ rootNode_inner hp.typed, hroot ▸ Nat.one_pos,
      hroot ▸ (by decide : 1 < bptreeOrder), ?_⟩
    intro c hc
    rw [hkids] at hc
    show ((rootHeap t.pool r key y).cell c.id).parent = _
    rw [rootHeap_kid hr hy ((hid c.id).mp (mem_ids.mpr ⟨c, hc, rfl⟩))]
  · show ((rootHeap t.pool r key y).cell t.pool.size).parent = none
    rw [hroot]
    rfl
  · intro q hq hnot _
    rw [hid, not_or] at hnot
    exact rootHeap_other hq hnot.1 hnot.2
  · intro q hq
    obtain rfl : q = t.pool.size := by simpa [ids] using hq
    exact .inr (Nat.le_refl _)
  · simp [ids]
  · intro q hq
    obtain rfl : q = t.pool.size := by simpa [ids] using hq
    exact Nat.lt_succ_self _

/-- A node other than the full one only changes its parent in the two halves
of the step. -/
theorem overflow_cell {h : Heap Node} {p q : NodeId} {pos : Nat} (hq : q < h.size)
    (hqp : q ≠ p) : ∃ p', (splitHeap (growHeap h p pos key y) p).cell q
      = { h.cell q with parent := p' } := by
  have hgrow : ∃ p', (growHeap h p pos key y).cell q = { h.cell q with parent := p' } := by
    by_cases hqy : q = y
    · exact ⟨_, by rw [hqy, growHeap_new (hqy ▸ hqp)]⟩
    · exact ⟨_, growHeap_other hqp hqy⟩
  obtain ⟨p', hp'⟩ := hgrow
  have hq' : q < (growHeap h p pos key y).size := hq
  by_cases hm : q ∈ movedKids ((growHeap h p pos key y).cell p)
  · exact ⟨_, by rw [splitHeap_moved hq' hqp hm, hp']⟩
  · exact ⟨_, by rw [splitHeap_other hq' hqp hm, hp']⟩

theorem overflow_other {h : Heap Node} {p q : NodeId} {pos : Nat} (hq : q < h.size)
    (hqp : q ≠ p) (hqy : q ≠ y) (hm : q ∉ movedKids ((growHeap h p pos key y).cell p)) :
    (splitHeap (growHeap h p pos key y) p).cell q = h.cell q := by
  have hq' : q < (growHeap h p pos key y).size := hq
  rw [splitHeap_other hq' hqp hm, growHeap_other hqp hqy]

/-- Where the parent of a split node finds it. -/
theorem Pending.parent {u : List Slot} (hp : Pending P t r l (u :: us) s key y) :
    ∃ sp ∈ u, ∃ pos, pos ≤ (t.pool.cell sp.id).numKeys ∧
      kidSlot (t.pool.cell sp.id) sp.lo sp.hi pos = s ∧
      (t.pool.cell s.id).parent = some sp.id ∧
      (t.pool.cell sp.id).children pos = some s.id ∧
      ∀ i, i < pos → (t.pool.cell sp.id).children i ≠ some s.id := by
  have hlev := hp.tower.level
  obtain ⟨sp, hsp, hs⟩ := List.mem_flatMap.mp (hlev.kids ▸ hp.mem)
  obtain ⟨pos, hpos, rfl⟩ := mem_slotsOf.mp hs
  have hnode := hlev.node sp hsp
  have hnd : (ids (u.flatMap (kidSlots t.pool))).Nodup := by
    rw [hlev.kids]
    exact (List.nodup_append'.mp (ids_append .. ▸ hp.nodup)).1
  refine ⟨sp, hsp, pos, hpos, rfl, hlev.parent sp hsp _ hs, hnode.kid pos hpos, ?_⟩
  intro i hi he
  rw [hnode.kid i (by omega), kidSlot_id, Option.some.injEq] at he
  have := childId_inj hnd hsp (show i ≤ _ by omega) hpos he
  omega

/-- The nodes of a pending split, two levels and the rest, are all different. -/
structure Apart (l l' u : List Slot) (us : List (List Slot)) (y : NodeId) : Prop where
  pair : (ids (l ++ u)).Nodup
  upper : (ids u).Nodup
  rest : (ids us.flatten).Nodup
  up : ∀ q ∈ ids u, q ∉ ids us.flatten
  base : ∀ q ∈ ids l', q ∉ ids u ∧ q ∉ ids us.flatten
  newPair : y ∉ ids (l ++ u)
  newUp : ∀ q ∈ ids u, q ≠ y
  newRest : ∀ q ∈ ids us.flatten, q ≠ y

theorem Pending.apart {u : List Slot} (hp : Pending P t r l (u :: us) s key y) :
    Apart l (splitLevel s.id key y l) u us y := by
  have hnd := hp.nodup
  have hnew := hp.new
  simp only [List.flatten_cons, ids_append, List.nodup_append', List.mem_append,
    not_or, List.disjoint_append_right] at hnd hnew
  obtain ⟨hndl, ⟨hndu, hndus, hdisu⟩, hdl, hdus⟩ := hnd
  refine ⟨?_, hndu, hndus, fun q h h' => hdisu h h', ?_, ?_, ?_, ?_⟩
  · rw [ids_append, List.nodup_append']
    exact ⟨hndl, hndu, hdl⟩
  · intro q hq
    have := (hp.mem_split hq).2
    simpa only [List.flatten_cons, ids_append, List.mem_append, not_or] using this
  · simpa only [ids_append, List.mem_append, not_or] using ⟨hnew.1, hnew.2.1⟩
  · rintro q hq rfl
    exact hnew.2.1 hq
  · rintro q hq rfl
    exact hnew.2.2 hq

theorem Pending.new_mem (hp : Pending P t r l us s key y) :
    y ∈ ids (splitLevel s.id key y l) :=
  mem_ids.mpr ⟨⟨y, some key, s.hi⟩,
    List.mem_flatMap.mpr ⟨s, hp.mem, by simp [splitSlot]⟩, rfl⟩

/-- The level over a pending split once the parent has taken the child in. -/
theorem Pending.grow (o : WeakOrderOn P Value.lt Value.eq) {u : List Slot}
    (hp : Pending P t r l (u :: us) s key y) {sp : Slot} (hsp : sp ∈ u) {pos : Nat}
    (hpos : pos ≤ (t.pool.cell sp.id).numKeys)
    (hs : kidSlot (t.pool.cell sp.id) sp.lo sp.hi pos = s) :
    Level P (growHeap t.pool sp.id pos key y) u (splitLevel s.id key y l) := by
  subst hs
  exact hp.tower.level.grow o hp.apart.pair hsp hpos rfl hp.apart.newPair hp.typed hp.lo hp.hi

/-- The tower above a level holds in a heap that kept the nodes above and, on
the level, the parents, with the level still half full. -/
theorem Pending.above {u : List Slot} (hp : Pending P t r l (u :: us) s key y)
    {h' : Heap Node} {p : NodeId} (hrest : ∀ q ∈ ids us.flatten, h'.cell q = t.pool.cell q)
    (hself : (h'.cell p).parent = (t.pool.cell p).parent ∧
      (us ≠ [] → BPTree.minKeys ≤ (t.pool.cell p).numKeys →
        BPTree.minKeys ≤ (h'.cell p).numKeys))
    (hlevel : ∀ q ∈ ids u, q ≠ p → h'.cell q = t.pool.cell q) :
    Tower P h' r u us := by
  refine hp.tower.2.2.2.congr hrest ?_ ?_
  · intro q hq
    by_cases he : q = p
    · rw [he]
      exact hself.1
    · rw [hlevel q hq he]
  · intro hne q hq
    have hmin : BPTree.minKeys ≤ (t.pool.cell q).numKeys := by
      cases us with
      | nil => exact absurd rfl hne
      | cons u' us' =>
          obtain ⟨c, hc, rfl⟩ := mem_ids.mp hq
          exact hp.tower.2.2.2.2.2.1 c hc
    by_cases he : q = p
    · rw [he] at hmin ⊢
      exact hself.2 hne hmin
    · rw [hlevel q hq he]
      exact hmin

/-- The parent has room for the new child. -/
theorem Pending.room (o : WeakOrderOn P Value.lt Value.eq) {u : List Slot}
    (hp : Pending P t r l (u :: us) s key y) {sp : Slot} (hsp : sp ∈ u) {pos : Nat}
    (hpos : pos ≤ (t.pool.cell sp.id).numKeys)
    (hs : kidSlot (t.pool.cell sp.id) sp.lo sp.hi pos = s)
    (hroom : (t.pool.cell sp.id).numKeys + 1 < bptreeOrder) :
    Climb P t { t with pool := growHeap t.pool sp.id pos key y }
      (splitLevel s.id key y l) (u :: us) (u :: us) := by
  have hap := hp.apart
  have hlev := hp.grow o hsp hpos hs
  have hidu : ∀ c ∈ u, c.id ∈ ids u := fun c hc => mem_ids.mpr ⟨c, hc, rfl⟩
  have hself : (growHeap t.pool sp.id pos key y).cell sp.id
      = grown (t.pool.cell sp.id) pos key y := growHeap_self
  have hother : ∀ q, q ≠ sp.id → q ≠ y →
      (growHeap t.pool sp.id pos key y).cell q = t.pool.cell q :=
    fun q h₁ h₂ => growHeap_other h₁ h₂
  have hupper : ∀ q ∈ ids u, q ≠ sp.id →
      (growHeap t.pool sp.id pos key y).cell q = t.pool.cell q :=
    fun q hq h₁ => hother q h₁ (hap.newUp q hq)
  have hbody : ∀ q ∈ ids (splitLevel s.id key y l), ∃ p,
      (growHeap t.pool sp.id pos key y).cell q = { t.pool.cell q with parent := p } := by
    intro q hq
    have hqp : q ≠ sp.id := fun he => (hap.base q hq).1 (he ▸ hidu sp hsp)
    by_cases hqy : q = y
    · exact ⟨_, by rw [hqy, growHeap_new (hqy ▸ hqp)]⟩
    · exact ⟨_, hother q hqp hqy⟩
  have hcap : ∀ c ∈ u, ((growHeap t.pool sp.id pos key y).cell c.id).numKeys < bptreeOrder := by
    intro c hc
    by_cases he : c.id = sp.id
    · rw [he, hself]
      exact hroom
    · rw [hupper _ (hidu c hc) he]
      exact (hp.tower.2.1 c hc).cap
  have habove : Tower P (growHeap t.pool sp.id pos key y) r u us := by
    refine hp.above (p := sp.id) (fun q hq => hother q ?_ (hap.newRest q hq)) ?_ hupper
    · exact fun he => hap.up sp.id (hidu sp hsp) (he ▸ hq)
    · rw [hself]
      exact ⟨rfl, fun _ hmin => Nat.le_succ_of_le hmin⟩
  refine ⟨⟨r, hp.root, hlev.kids, hlev.inner hcap, hp.half hbody, habove⟩, Nat.le_refl _, ?_,
    hbody, fun q hq => .inl hq, ?_, ?_, rfl, rfl, rfl, rfl⟩
  · intro q _ hl hus
    simp only [List.flatten_cons, ids_append, List.mem_append, not_or] at hus
    exact hother q (fun he => hus.1 (he ▸ hidu sp hsp)) fun he => hl (he ▸ hp.new_mem)
  · rw [List.flatten_cons, ids_append, List.nodup_append']
    exact ⟨hap.upper, hap.rest, fun q h h' => hap.up q h h'⟩
  · intro q hq
    exact hp.alloc q (by rw [ids_append]; exact List.mem_append_right _ hq)

/-- The heap after the full node `p` took the child in and split at once. -/
structure Overflown (P : Value → Prop) (h h' : Heap Node) (p : NodeId) (n : Node)
    (u l : List Slot) : Prop where
  size : h'.size = h.size + 1
  self : h'.cell p = { n with numKeys := bptreeOrder / 2 }
  new : h'.cell h.size = upperHalf n
  full : n.numKeys = bptreeOrder
  keep : ∀ q, q < h.size → q ≠ p → q ∉ ids l → h'.cell q = h.cell q
  body : ∀ q, q < h.size → q ≠ p → ∃ p', h'.cell q = { h.cell q with parent := p' }
  level : Level P h' (splitLevel p (n.keys (bptreeOrder / 2)) h.size u) l

theorem Pending.overflow (o : WeakOrderOn P Value.lt Value.eq) {u : List Slot}
    (hp : Pending P t r l (u :: us) s key y) {sp : Slot} (hsp : sp ∈ u) {pos : Nat}
    (hpos : pos ≤ (t.pool.cell sp.id).numKeys)
    (hs : kidSlot (t.pool.cell sp.id) sp.lo sp.hi pos = s)
    (hfull : (t.pool.cell sp.id).numKeys + 1 = bptreeOrder) :
    Overflown P t.pool (splitHeap (growHeap t.pool sp.id pos key y) sp.id) sp.id
      (grown (t.pool.cell sp.id) pos key y) u (splitLevel s.id key y l) := by
  have hap := hp.apart
  have hlev := hp.grow o hsp hpos hs
  have hidu : sp.id ∈ ids u := mem_ids.mpr ⟨sp, hsp, rfl⟩
  have hord : bptreeOrder = 256 := rfl
  have hself : (growHeap t.pool sp.id pos key y).cell sp.id
      = grown (t.pool.cell sp.id) pos key y := growHeap_self
  have halu : ∀ q ∈ ids u, q < (growHeap t.pool sp.id pos key y).size := fun q hq =>
    hp.alloc q (by simp only [List.flatten_cons, ids_append, List.mem_append]
                   exact .inr (.inl hq))
  have hmoved : ∀ q, q ∈ movedKids ((growHeap t.pool sp.id pos key y).cell sp.id) →
      q ∈ ids (splitLevel s.id key y l) := by
    intro q hq
    obtain ⟨i, _, hi, rfl⟩ := (mem_movedKids (by rw [hself, grown_numKeys]; omega)).mp hq
    exact hlev.mem_ids hsp (mem_ids.mpr ⟨_, mem_slotsOf.mpr ⟨i, hi, rfl⟩, rfl⟩)
  refine ⟨rfl, ?_, ?_, hfull, ?_, fun q hq hne => overflow_cell hq hne, ?_⟩
  · rw [splitHeap_self (halu _ hidu) (fun hm => (hap.base _ (hmoved _ hm)).1 hidu), hself,
      grown_numKeys, hfull]
  · rw [← hself]
    exact splitHeap_new
  · intro q hq hne hl
    exact overflow_other hq hne (fun he => hl (he ▸ hp.new_mem)) fun hm => hl (hmoved q hm)
  · have hnd : (ids (splitLevel s.id key y l ++ u)).Nodup := by
      rw [ids_append, List.nodup_append']
      have hl := List.nodup_append'.mp (ids_append .. ▸ hap.pair)
      have hy := hap.newPair
      rw [ids_append, List.mem_append, not_or] at hy
      exact ⟨splitLevel_nodup hl.1 hy.1, hl.2.1, fun q h h' => (hap.base q h).1 h'⟩
    have hal : ∀ q ∈ ids (splitLevel s.id key y l ++ u),
        q < (growHeap t.pool sp.id pos key y).size := by
      intro q hq
      rw [ids_append, List.mem_append] at hq
      exact hq.elim (fun h => (hp.mem_split h).1) (halu q)
    have hsplit := hlev.split hnd hal hsp (by rw [hself, grown_numKeys]; omega)
    rw [hself, grown_numKeys, hfull] at hsplit
    exact hsplit

/-- The parent was full: it splits, and the split goes on climbing. -/
theorem Pending.full {u : List Slot} (hp : Pending P t r l (u :: us) s key y) {sp : Slot}
    (hsp : sp ∈ u) {h' : Heap Node} {n : Node}
    (hpar : n.parent = (t.pool.cell sp.id).parent) (hnode : InnerNode P n sp.lo sp.hi)
    (ho : Overflown P t.pool h' sp.id n u (splitLevel s.id key y l)) :
    Pending P { t with pool := h' } r u us sp (n.keys (bptreeOrder / 2)) t.pool.size := by
  have hap := hp.apart
  have hidu : sp.id ∈ ids u := mem_ids.mpr ⟨sp, hsp, rfl⟩
  have hmid : bptreeOrder / 2 < n.numKeys := by rw [ho.full]; decide
  have hal : ∀ q ∈ ids (u ++ us.flatten), q < t.pool.size := fun q hq =>
    hp.alloc q (by rw [ids_append]; exact List.mem_append_right _ hq)
  have hu : ∀ q ∈ ids u, q ∈ ids (u ++ us.flatten) := fun q hq =>
    (ids_append ..).symm ▸ List.mem_append_left _ hq
  have hus : ∀ q ∈ ids us.flatten, q ∈ ids (u ++ us.flatten) := fun q hq =>
    (ids_append ..).symm ▸ List.mem_append_right _ hq
  refine ⟨hp.root, ?_, ?_, ?_, hsp, fun h => Nat.lt_irrefl _ (hal _ h), ?_,
    hnode.lo _ hmid, hnode.hi _ hmid, hnode.keys.typed _ hmid, ?_, ?_⟩
  · refine hp.above (p := sp.id) (fun q hq => ho.keep q (hal q (hus q hq)) ?_ ?_) ?_
      (fun q hq hne => ho.keep q (hal q (hu q hq)) hne fun h => (hap.base q h).1 hq)
    · exact fun he => hap.up sp.id hidu (he ▸ hq)
    · exact fun h => (hap.base q h).2 hq
    · rw [ho.self]
      exact ⟨hpar, fun _ _ => (by decide : BPTree.minKeys ≤ bptreeOrder / 2)⟩
  · rw [ids_append, List.nodup_append']
    exact ⟨hap.upper, hap.rest, fun q h h' => hap.up q h h'⟩
  · intro q hq
    show q < h'.size
    rw [ho.size]
    exact Nat.lt_succ_of_lt (hal q hq)
  · show _ < h'.size
    rw [ho.size]
    exact Nat.lt_succ_self _
  · show _ ≤ (h'.cell sp.id).numKeys
    rw [ho.self]
    exact (by decide : BPTree.minKeys ≤ bptreeOrder / 2)
  · show _ ≤ (h'.cell t.pool.size).numKeys
    rw [ho.new]
    show _ ≤ n.numKeys - n.numKeys / 2 - 1
    rw [ho.full]
    decide

/-- A climb from above a full parent is a climb from below it. -/
theorem Climb.through {u : List Slot} (hp : Pending P t r l (u :: us) s key y) {sp : Slot}
    (hsp : sp ∈ u) {h' : Heap Node} {n : Node}
    (ho : Overflown P t.pool h' sp.id n u (splitLevel s.id key y l))
    (hp' : Pending P { t with pool := h' } r u us sp (n.keys (bptreeOrder / 2)) t.pool.size)
    (hc : Climb P { t with pool := h' } t'
      (splitLevel sp.id (n.keys (bptreeOrder / 2)) t.pool.size u) us us') :
    Climb P t t' (splitLevel s.id key y l) (u :: us)
      (splitLevel sp.id (n.keys (bptreeOrder / 2)) t.pool.size u :: us') := by
  have hap := hp.apart
  set u' := splitLevel sp.id (n.keys (bptreeOrder / 2)) t.pool.size u with hu'
  have hgrows : t.pool.size + 1 ≤ t'.pool.size := ho.size ▸ hc.grows
  -- a node that is neither on the upper level nor new
  have hout : ∀ q, q < t.pool.size → q ∉ ids u → q ∉ ids u' := fun q hq hn hm =>
    (mem_ids_splitLevel hm).elim hn (Nat.ne_of_lt hq)
  have hbase : ∀ q ∈ ids (splitLevel s.id key y l), t'.pool.cell q = h'.cell q := by
    intro q hq
    have hlt := (hp.mem_split hq).1
    exact hc.frame q (show q < h'.size by rw [ho.size]; exact Nat.lt_succ_of_lt hlt)
      (hout q hlt (hap.base q hq).1) (hap.base q hq).2
  have hbody : ∀ q ∈ ids (splitLevel s.id key y l),
      ∃ p, t'.pool.cell q = { t.pool.cell q with parent := p } := by
    intro q hq
    rw [hbase q hq]
    exact ho.body q (hp.mem_split hq).1
      fun he => (hap.base q hq).1 (he ▸ mem_ids.mpr ⟨sp, hsp, rfl⟩)
  have hlev : Level P t'.pool u' (splitLevel s.id key y l) :=
    ho.level.congr hc.body hbase
  have hcap : ∀ c ∈ u', (t'.pool.cell c.id).numKeys < bptreeOrder := by
    intro c hcu
    obtain ⟨p, hcell⟩ := hc.body c.id (mem_ids.mpr ⟨c, hcu, rfl⟩)
    rw [hcell]
    show (h'.cell c.id).numKeys < bptreeOrder
    rcases mem_splitLevel hcu with ⟨hm, hne⟩ | ⟨s₀, hs₀, hx, rfl | rfl⟩
    · have hcm : c.id ∈ ids u := mem_ids.mpr ⟨c, hm, rfl⟩
      rw [ho.keep c.id _ hne fun h => (hap.base _ h).1 hcm]
      · exact (hp.tower.2.1 c hm).cap
      · exact hp.alloc _ (by simp only [List.flatten_cons, ids_append, List.mem_append]
                             exact .inr (.inl hcm))
    · rw [ho.self]
      exact (by decide : bptreeOrder / 2 < bptreeOrder)
    · rw [ho.new]
      show n.numKeys - n.numKeys / 2 - 1 < bptreeOrder
      rw [ho.full]
      decide
  obtain ⟨r', hr', ht'⟩ := hc.tower
  refine ⟨⟨r', hr', hlev.kids, hlev.inner hcap, hp.half hbody, ht'⟩, ?_, ?_, hbody, ?_, ?_,
    ?_, hc.keyType, hc.leftmost, hc.size, ?_⟩
  · omega
  · intro q hq hl hus
    simp only [List.flatten_cons, ids_append, List.mem_append, not_or] at hus
    rw [hc.frame q (show q < h'.size by rw [ho.size]; exact Nat.lt_succ_of_lt hq)
      (hout q hq hus.1) hus.2]
    exact ho.keep q hq (fun he => hus.1 (he ▸ mem_ids.mpr ⟨sp, hsp, rfl⟩)) hl
  · intro q hq
    simp only [List.flatten_cons, ids_append, List.mem_append] at hq ⊢
    rcases hq with h | h
    · exact (mem_ids_splitLevel h).imp .inl (fun he => Nat.le_of_eq he.symm)
    · rcases hc.fresh q h with h | h
      · exact .inl (.inr h)
      · have h' : h'.size ≤ q := h
        rw [ho.size] at h'
        exact .inr (Nat.le_of_succ_le h')
  · exact hc.nodup_all hp'
  · intro q hq
    simp only [List.flatten_cons, ids_append, List.mem_append] at hq
    refine hq.elim (fun h => ?_) (hc.alloc q)
    refine Nat.lt_of_lt_of_le ?_ hgrows
    refine (mem_ids_splitLevel h).elim (fun h => Nat.lt_succ_of_lt (hp.alloc q ?_))
      (fun he => he ▸ Nat.lt_succ_self _)
    simp only [List.flatten_cons, ids_append, List.mem_append]
    exact .inr (.inl h)
  · have := hc.height
    simp only [List.length_cons] at this ⊢
    omega

/-- Every pending split is settled: `insert_into_parent` returns, with fuel
for two calls a level. -/
theorem insertIntoParent_climb (o : WeakOrderOn P Value.lt Value.eq) :
    ∀ (us : List (List Slot)) {t : BPTree} {r : NodeId} {l : List Slot} {s : Slot}
      {key : Value} {y : NodeId} (fuel : Nat), 2 * us.length + 1 ≤ fuel →
      Pending P t r l us s key y →
      ∃ t' us', BPTree.insertIntoParent fuel t s.id key y = .ok t' ∧
        Climb P t t' (splitLevel s.id key y l) us us' := by
  intro us
  induction us with
  | nil =>
      intro t r l s key y fuel hf hp
      obtain ⟨f, rfl⟩ : ∃ f, fuel = f + 1 := ⟨fuel - 1, by simp at hf; omega⟩
      exact insertIntoParent_top hp f
  | cons u us ih =>
      intro t r l s key y fuel hf hp
      rw [List.length_cons] at hf
      obtain ⟨f, rfl⟩ : ∃ f, fuel = f + 2 := ⟨fuel - 2, by omega⟩
      obtain ⟨sp, hsp, pos, hpos, hs, hpar, hchild, hfirst⟩ := hp.parent
      have hap := hp.apart
      have hidu : sp.id ∈ ids u := mem_ids.mpr ⟨sp, hsp, rfl⟩
      have hx : s.id ∈ ids l := mem_ids.mpr ⟨s, hp.mem, rfl⟩
      have hxl : s.id ∈ ids (l ++ (u :: us).flatten) := by
        rw [ids_append]
        exact List.mem_append_left _ hx
      have hpl : sp.id ∈ ids (l ++ (u :: us).flatten) := by
        simp only [List.flatten_cons, ids_append, List.mem_append]
        exact .inr (.inl hidu)
      have hroot : t.root ≠ some s.id := by
        rw [hp.root]
        intro he
        have hr := hp.tower.root_mem (by simp)
        rw [Option.some.inj he] at hr
        exact (hp.mem_split (ids_subset_splitLevel hx)).2 hr
      have hcap := (hp.tower.2.1 sp hsp).cap
      rw [insertIntoParent_inner (f + 1) hroot (hp.alloc _ hxl) hp.newAlloc (hp.alloc _ hpl)
        (hap.newUp _ hidu) hpar hcap hpos hchild hfirst]
      by_cases hfull : bptreeOrder ≤ (t.pool.cell sp.id).numKeys + 1
      · rw [if_pos hfull]
        have hfull' : (t.pool.cell sp.id).numKeys + 1 = bptreeOrder := by omega
        have ho := hp.overflow o hsp hpos hs hfull'
        have hlev := hp.grow o hsp hpos hs
        have hself : (growHeap t.pool sp.id pos key y).cell sp.id
            = grown (t.pool.cell sp.id) pos key y := growHeap_self
        have hnode := hlev.node sp hsp
        rw [hself] at hnode
        have hp' := hp.full (n := grown (t.pool.cell sp.id) pos key y) hsp rfl hnode ho
        obtain ⟨t', us', ht', hc⟩ := ih f (by omega) hp'
        have hsplit := splitInternal_spec
          (t := { t with pool := growHeap t.pool sp.id pos key y }) f (hp.alloc _ hpl)
          (by simp only [hself, grown_numKeys, hfull'])
          (fun i hi => ⟨(hlev.node sp hsp).kid i hi, (hp.mem_split (hlev.mem_ids hsp
            (mem_ids.mpr ⟨_, mem_slotsOf.mpr ⟨i, hi, rfl⟩, rfl⟩))).1⟩)
        simp only [hself, grown_numKeys, hfull', growHeap_size] at hsplit
        rw [hsplit]
        exact ⟨t', _, ht', Climb.through hp hsp ho hp' hc⟩
      · rw [if_neg hfull]
        exact ⟨_, _, rfl, hp.room o hsp hpos hs (by omega)⟩

end Climb

end FlexQL.Proofs
