import FlexQL.Proofs.BPTreeFind

/-!
# Inserting a key

`insert` changes one leaf: it overwrites the row id of a tied key, or opens a
gap for a new one. On the contents of the tree both are `upsert`. A leaf that
is full afterwards is cut in two and linked into the chain, which leaves the
contents alone and starts the climb of `BPTreeClimb`.

`Loose` is the invariant in the moment before the cut, when one leaf may hold
as many keys as its array has room for.
-/

namespace FlexQL.Proofs

open Lib FlexQL.Ref FlexQL.Spec

variable {P : Value → Prop}

/-! ## One leaf -/

/-- The leaf after the row id of a present key was replaced. -/
def overwritten (n : Node) (pos r : Nat) : Node :=
  { n with rowIds := setAt n.rowIds pos r }

/-- The leaf after a new key was put in. -/
def filled (n : Node) (pos : Nat) (key : Value) (r : Nat) : Node :=
  { n with
    keys := openAt n.keys pos n.numKeys key
    rowIds := openAt n.rowIds pos n.numKeys r
    numKeys := n.numKeys + 1 }

section Leaf

variable {n : Node} {pos r : Nat} {key : Value} {lo hi : Option Value}

theorem entries_overwritten (hs : Splits n key pos) (hp : pos < n.numKeys)
    (he : (n.keys pos).eq key = true) :
    entries (overwritten n pos r) = upsert Value.lt Value.eq key r (entries n) := by
  rw [entries_split hp, upsert_append_left, upsert_of_tie (hs.above pos (Nat.le_refl _) hp) he,
    entries_split (show pos < (overwritten n pos r).numKeys from hp)]
  · congr 1
    · refine firstN_congr fun i hi => ?_
      simp [overwritten, setAt, Nat.ne_of_lt hi]
    · congr 1
      · simp [overwritten, setAt]
      · refine firstN_congr fun i _ => ?_
        simp [overwritten, setAt, show pos + 1 + i ≠ pos by omega]
  · intro e he
    obtain ⟨i, hi, rfl⟩ := mem_firstN.mp he
    exact hs.below i hi

theorem entries_filled (o : WeakOrderOn P Value.lt Value.eq) (hn : Keys P n) (hk : P key)
    (hs : Splits n key pos) (hne : pos < n.numKeys → (n.keys pos).eq key = false) :
    entries (filled n pos key r) = upsert Value.lt Value.eq key r (entries n) := by
  have hle := hs.le
  have hcut : entries n = firstN (fun i => (n.keys i, n.rowIds i)) pos ++
      firstN (fun i => (n.keys (pos + i), n.rowIds (pos + i))) (n.numKeys - pos) :=
    firstN_cut _ hle
  rw [hcut, upsert_append_left, upsert_of_gt o hk]
  · show firstN (fun i => (openAt n.keys pos n.numKeys key i,
      openAt n.rowIds pos n.numKeys r i)) (n.numKeys + 1) = _
    rw [openAt_prod, firstN_openAt _ _ hle]
  · intro e he
    obtain ⟨i, hi, rfl⟩ := mem_firstN.mp he
    exact hn.typed _ (by omega)
  · intro e he
    obtain ⟨i, hi, rfl⟩ := mem_firstN.mp he
    exact hs.lt_of_not_tie o hn hk hne _ (by omega) (by omega)
  · intro e he
    obtain ⟨i, hi, rfl⟩ := mem_firstN.mp he
    exact hs.below i hi

theorem LeafNode.overwritten (hn : LeafNode P n lo hi) :
    LeafNode P (overwritten n pos r) lo hi :=
  ⟨hn.leaf, ⟨hn.keys.sorted, hn.keys.typed⟩, hn.bounds, hn.lo, hn.hi⟩

theorem LeafNode.filled (o : WeakOrderOn P Value.lt Value.eq) (hn : LeafNode P n lo hi)
    (hk : P key) (hs : Splits n key pos)
    (hne : pos < n.numKeys → (n.keys pos).eq key = false)
    (hlo : AtLeast lo key) (hhi : Below hi key) :
    LeafNode P (filled n pos key r) lo hi := by
  have hgt := hs.lt_of_not_tie o hn.keys hk hne
  exact ⟨hn.leaf, hn.keys.opened hk hs.le hs.below hgt rfl rfl, hn.bounds,
    forall_openAt hs.le hn.lo hlo, forall_openAt hs.le hn.hi hhi⟩

end Leaf

/-! ## The tree with one leaf changed -/

/-- The invariant without the bound on the number of keys of a leaf. -/
structure Loose (P : Value → Prop) (t : BPTree) (leaves : List Slot)
    (uppers : List (List Slot)) : Prop where
  tower : ∃ r, t.root = some r ∧ Tower P t.pool r leaves uppers
  leaf : ∀ s ∈ leaves, LeafNode P (t.pool.cell s.id) s.lo s.hi
  nodup : (ids (leaves ++ uppers.flatten)).Nodup
  alloc : ∀ s ∈ leaves ++ uppers.flatten, s.id < t.pool.size
  linked : Linked t.pool none (ids leaves)
  leftmost : t.leftmostLeaf = (ids leaves).head?
  height : t.height = uppers.length + 1
  size : t.size = (contents t.pool leaves).length

theorem Loose.inv {t : BPTree} {leaves : List Slot} {uppers : List (List Slot)}
    (hl : Loose P t leaves uppers)
    (hcap : ∀ s ∈ leaves, (t.pool.cell s.id).numKeys < bptreeOrder) :
    Inv P t leaves uppers :=
  ⟨hl.tower, fun s hs => ⟨hl.leaf s hs, hcap s hs⟩, hl.nodup, hl.alloc, hl.linked,
    hl.leftmost, hl.height, hl.size⟩

theorem Inv.loose {t : BPTree} {leaves : List Slot} {uppers : List (List Slot)}
    (hi : Inv P t leaves uppers) : Loose P t leaves uppers :=
  ⟨hi.tower, fun s hs => (hi.leaf s hs).node, hi.nodup, hi.alloc, hi.linked,
    hi.leftmost, hi.height, hi.size⟩

/-- The chain only reads the links. -/
theorem Linked.congr {h h' : Heap Node} : ∀ {l : List NodeId} {p : Option NodeId},
    Linked h p l → (∀ q ∈ l, (h'.cell q).prev = (h.cell q).prev ∧
      (h'.cell q).next = (h.cell q).next) → Linked h' p l := by
  intro l
  induction l with
  | nil => intro p _ _; trivial
  | cons a l ih =>
      intro p hl hc
      obtain ⟨hprev, hnext, hrest⟩ := hl
      obtain ⟨h₁, h₂⟩ := hc a (by simp)
      exact ⟨h₁.trans hprev, h₂.trans hnext, ih hrest fun q hq => hc q (by simp [hq])⟩

theorem contents_congr {h h' : Heap Node} {l : List Slot}
    (hc : ∀ s ∈ l, entries (h'.cell s.id) = entries (h.cell s.id)) :
    contents h' l = contents h l :=
  List.flatMap_congr hc

theorem Tower.min_keys {h : Heap Node} {r : NodeId} {l : List Slot}
    {us : List (List Slot)} (ht : Tower P h r l us) (hus : us ≠ []) :
    ∀ s ∈ l, BPTree.minKeys ≤ (h.cell s.id).numKeys := by
  cases us with
  | nil => exact absurd rfl hus
  | cons u us => exact ht.2.2.1

section Put

variable {t : BPTree} {l l' : List Slot} {s : Slot} {uppers : List (List Slot)} {n : Node}

theorem Loose.notMem (hl : Loose P t (l ++ s :: l') uppers) :
    s.id ∉ ids l ∧ s.id ∉ ids l' ∧ s.id ∉ ids uppers.flatten := by
  have hnd := hl.nodup
  rw [List.append_assoc, List.cons_append, ids_append, ids_cons] at hnd
  have hmid := (List.nodup_cons.mp (List.nodup_middle.mp hnd)).1
  simpa only [ids_append, List.mem_append, not_or] using hmid

/-- Replacing a leaf by one with the same links. -/
theorem Inv.put (hi : Inv P t (l ++ s :: l') uppers) (hn : LeafNode P n s.lo s.hi)
    (hparent : n.parent = (t.pool.cell s.id).parent)
    (hprev : n.prev = (t.pool.cell s.id).prev) (hnext : n.next = (t.pool.cell s.id).next)
    (hmin : (t.pool.cell s.id).numKeys ≤ n.numKeys) {size : Nat}
    (hsize : size = (contents t.pool l ++ entries n ++ contents t.pool l').length) :
    Loose P { t with pool := t.pool.put s.id n, size := size } (l ++ s :: l') uppers ∧
      contents (t.pool.put s.id n) (l ++ s :: l')
        = contents t.pool l ++ entries n ++ contents t.pool l' := by
  obtain ⟨hl, hl', hup⟩ := hi.loose.notMem
  obtain ⟨r, hr, ht⟩ := hi.tower
  have hself : (t.pool.put s.id n).cell s.id = n := Heap.put_cell_self ..
  have hother : ∀ q, q ≠ s.id → (t.pool.put s.id n).cell q = t.pool.cell q :=
    fun q hq => Heap.put_cell_ne _ _ hq
  have hcont : contents (t.pool.put s.id n) (l ++ s :: l')
      = contents t.pool l ++ entries n ++ contents t.pool l' := by
    rw [contents_append, contents_cons, hself, List.append_assoc]
    congr 1
    · refine contents_congr fun c hc => ?_
      rw [hother _ fun he => hl (he ▸ mem_ids.mpr ⟨c, hc, rfl⟩)]
    · congr 1
      refine contents_congr fun c hc => ?_
      rw [hother _ fun he => hl' (he ▸ mem_ids.mpr ⟨c, hc, rfl⟩)]
  refine ⟨⟨⟨r, hr, ht.congr ?_ ?_ ?_⟩, ?_, hi.nodup, hi.alloc, ?_, hi.leftmost, hi.height,
    by rw [hcont]; exact hsize⟩, hcont⟩
  · exact fun q hq => hother q fun he => hup (he ▸ hq)
  · intro q _
    by_cases he : q = s.id
    · subst he
      exact (congrArg Node.parent hself).trans hparent
    · exact congrArg Node.parent (hother q he)
  · intro hne q hq
    obtain ⟨c, hc, rfl⟩ := mem_ids.mp hq
    have := ht.min_keys hne c hc
    by_cases he : c.id = s.id
    · rw [he] at this ⊢
      show BPTree.minKeys ≤ ((t.pool.put s.id n).cell s.id).numKeys
      rw [hself]
      exact Nat.le_trans this hmin
    · exact (hother _ he).symm ▸ this
  · intro c hc
    by_cases he : c.id = s.id
    · obtain rfl : c = s := eq_of_id
        (List.nodup_append'.mp (ids_append .. ▸ hi.nodup)).1 hc (by simp) he
      exact hself.symm ▸ hn
    · exact (hother _ he).symm ▸ (hi.leaf c hc).node
  · refine hi.linked.congr fun q _ => ?_
    by_cases he : q = s.id
    · subst he
      exact hself.symm ▸ ⟨hprev, hnext⟩
    · exact (hother q he).symm ▸ ⟨rfl, rfl⟩

end Put

/-! ## Cutting a full leaf -/

/-- The upper half of a split leaf. -/
def upperLeaf (n : Node) (p : NodeId) : Node :=
  { Node.new true with
    numKeys := n.numKeys - n.numKeys / 2
    keys := fun j => if j < n.numKeys - n.numKeys / 2
      then n.keys (n.numKeys / 2 + j) else default
    rowIds := fun j => if j < n.numKeys - n.numKeys / 2
      then n.rowIds (n.numKeys / 2 + j) else 0
    next := n.next
    prev := some p }

/-- The leaf after `p`, if there is one, gets a new predecessor. -/
def relink (h : Heap Node) (next : Option NodeId) (q : NodeId) : Heap Node :=
  match next with
  | none => h
  | some r => h.put r { h.cell r with prev := some q }

def leafHeap (h : Heap Node) (p : NodeId) : Heap Node :=
  let n := h.cell p
  let h₁ := (h.alloc (upperLeaf n p)).1
  let h₂ := relink h₁ n.next h.size
  h₂.put p { h₂.cell p with numKeys := n.numKeys / 2, next := some h.size }

theorem relink_size (h : Heap Node) (next : Option NodeId) (q : NodeId) :
    (relink h next q).size = h.size := by
  cases next <;> rfl

theorem relink_cell_ne {h : Heap Node} {next : Option NodeId} {q z : NodeId}
    (hz : next ≠ some z) : (relink h next q).cell z = h.cell z := by
  cases next with
  | none => rfl
  | some r => exact Heap.put_cell_ne _ _ fun he => hz (he ▸ rfl)

theorem relinkNext_spec {h : Heap Node} {next : Option NodeId} (q : NodeId)
    (hnext : ∀ r, next = some r → r < h.size) :
    BPTree.relinkNext h next q = .ok (relink h next q) := by
  cases next with
  | none => rfl
  | some r => rw [BPTree.relinkNext, Heap.get_of_lt (hnext r rfl), Outcome.bind_ok, relink]

theorem alloc_put_self (h : Heap Node) (a b : Node) :
    (h.alloc a).1.put h.size b = (h.alloc b).1 := by
  simp only [Heap.put, Heap.alloc, Heap.mk.injEq, true_and]
  funext q
  by_cases hq : q = h.size <;> simp [hq]

/-- The loop of `split_leaf` copies the upper half. -/
theorem moveEntries_upper {n : Node} (hcap : n.numKeys ≤ bptreeOrder) :
    BPTree.moveEntries n (n.numKeys / 2) (n.numKeys - n.numKeys / 2) 0
      { Node.new true with numKeys := n.numKeys - n.numKeys / 2 } = .ok
      { Node.new true with
        numKeys := n.numKeys - n.numKeys / 2
        keys := fun j => if j < n.numKeys - n.numKeys / 2
          then n.keys (n.numKeys / 2 + j) else default
        rowIds := fun j => if j < n.numKeys - n.numKeys / 2
          then n.rowIds (n.numKeys / 2 + j) else 0 } := by
  have hmove := moveEntries_spec n (n.numKeys / 2) (n.numKeys - n.numKeys / 2) 0
    { Node.new true with numKeys := n.numKeys - n.numKeys / 2 } (by omega)
  simp only [Nat.zero_le, true_and, Nat.zero_add] at hmove
  exact hmove

theorem upperLeaf_first {n : Node} {p : NodeId} (hn : 0 < n.numKeys) :
    (upperLeaf n p).key 0 = .ok (n.keys (n.numKeys / 2)) := by
  rw [Node.key_of_lt (by decide)]
  exact congrArg _ (if_pos (by omega))

theorem splitLeaf_spec {t : BPTree} {p : NodeId} (hp : p < t.pool.size)
    (hfull : (t.pool.cell p).numKeys = bptreeOrder)
    (hnext : ∀ r, (t.pool.cell p).next = some r → r < t.pool.size) :
    t.splitLeaf p = BPTree.insertIntoParent (2 * (t.pool.size + 1))
      { t with pool := leafHeap t.pool p } p
      ((t.pool.cell p).keys ((t.pool.cell p).numKeys / 2)) t.pool.size := by
  have hord : bptreeOrder = 256 := rfl
  have hp' : p < t.pool.size + 1 := Nat.lt_succ_of_lt hp
  rw [BPTree.splitLeaf]
  simp only [Heap.alloc_id]
  rw [Heap.get_of_lt (show p < (t.pool.alloc _).1.size from hp'), Outcome.bind_ok,
    Heap.alloc_cell_lt _ _ hp, moveEntries_upper hfull.le, Outcome.bind_ok, alloc_put_self]
  change (BPTree.relinkNext (t.pool.alloc (upperLeaf (t.pool.cell p) p)).1
    (t.pool.cell p).next t.pool.size >>= fun h => h.get p >>= fun leaf =>
      (upperLeaf (t.pool.cell p) p).key 0 >>= fun first => _) = _
  rw [relinkNext_spec _ fun r hr => Nat.lt_succ_of_lt (hnext r hr), Outcome.bind_ok,
    Heap.get_of_lt (by rw [relink_size]; exact hp'), Outcome.bind_ok,
    upperLeaf_first (by omega), Outcome.bind_ok]
  simp only [Heap.put_size, relink_size, Heap.alloc_size]
  rfl

section LeafHeap

variable {h : Heap Node} {p q : NodeId}

@[simp] theorem leafHeap_size : (leafHeap h p).size = h.size + 1 := by
  simp [leafHeap, relink_size]

theorem leafHeap_self (hp : p < h.size) (hn : (h.cell p).next ≠ some p) :
    (leafHeap h p).cell p
      = { h.cell p with numKeys := (h.cell p).numKeys / 2, next := some h.size } := by
  rw [leafHeap, Heap.put_cell_self, relink_cell_ne hn, Heap.alloc_cell_lt _ _ hp]

theorem leafHeap_new (hp : p < h.size) (hn : (h.cell p).next ≠ some h.size) :
    (leafHeap h p).cell h.size = upperLeaf (h.cell p) p := by
  rw [leafHeap, Heap.put_cell_ne _ _ (Nat.ne_of_gt hp), relink_cell_ne hn,
    Heap.alloc_cell_self]

theorem leafHeap_other (hq : q < h.size) (hqp : q ≠ p) (hn : (h.cell p).next ≠ some q) :
    (leafHeap h p).cell q = h.cell q := by
  rw [leafHeap, Heap.put_cell_ne _ _ hqp, relink_cell_ne hn, Heap.alloc_cell_lt _ _ hq]

theorem leafHeap_next (hq : q < h.size) (hqp : q ≠ p) (hn : (h.cell p).next = some q) :
    (leafHeap h p).cell q = { h.cell q with prev := some h.size } := by
  rw [leafHeap, Heap.put_cell_ne _ _ hqp, hn, relink, Heap.put_cell_self,
    Heap.alloc_cell_lt _ _ hq]

/-- Apart from the leaf that is cut, at most a back link changes. -/
theorem leafHeap_links (hq : q < h.size) (hqp : q ≠ p) :
    ∃ b, (leafHeap h p).cell q = { h.cell q with prev := b } := by
  by_cases hn : (h.cell p).next = some q
  · exact ⟨_, leafHeap_next hq hqp hn⟩
  · exact ⟨_, leafHeap_other hq hqp hn⟩

end LeafHeap

theorem Linked.next_eq {h : Heap Node} {p : NodeId} : ∀ {l l' : List NodeId}
    {a : Option NodeId}, Linked h a (l ++ p :: l') → (h.cell p).next = l'.head? := by
  intro l
  induction l with
  | nil => intro l' a hl; exact hl.2.1
  | cons b l ih => intro l' a hl; exact ih hl.2.2

/-- Cutting the leaf `p` of a chain puts the new leaf right after it. -/
theorem Linked.cut {h : Heap Node} {p : NodeId} : ∀ {l l' : List NodeId}
    {a : Option NodeId}, Linked h a (l ++ p :: l') → (l ++ p :: l').Nodup →
    (∀ q ∈ l ++ p :: l', q < h.size) →
    Linked (leafHeap h p) a (l ++ p :: h.size :: l') := by
  intro l
  induction l with
  | nil =>
      intro l' a hl hnd hal
      obtain ⟨hprev, hnext, hrest⟩ := hl
      obtain ⟨hpl, hnd'⟩ := List.nodup_cons.mp hnd
      have hp : p < h.size := hal p (by simp)
      have hnp : (h.cell p).next ≠ some p := by
        rw [hnext]
        exact fun he => hpl (List.mem_of_mem_head? he)
      have hns : (h.cell p).next ≠ some h.size := by
        rw [hnext]
        exact fun he => Nat.lt_irrefl _
          (hal h.size (List.mem_cons_of_mem _ (List.mem_of_mem_head? he)))
      refine ⟨?_, ?_, ?_, ?_, ?_⟩
      · rw [leafHeap_self hp hnp]
        exact hprev
      · rw [leafHeap_self hp hnp]
        rfl
      · rw [leafHeap_new hp hns]
        rfl
      · rw [leafHeap_new hp hns]
        exact hnext
      · cases l' with
        | nil => trivial
        | cons r l' =>
            obtain ⟨_, hrn, hrr⟩ := hrest
            have hr : r < h.size := hal r (by simp)
            have hrp : r ≠ p := fun he => hpl (by simp [he])
            rw [Linked, leafHeap_next hr hrp hnext]
            refine ⟨rfl, hrn, hrr.congr fun q hq => ?_⟩
            have hqr : q ≠ r := fun he => (List.nodup_cons.mp hnd').1 (he ▸ hq)
            have hqp : q ≠ p := fun he => hpl (by simp [← he, hq])
            rw [leafHeap_other (hal q (by simp [hq])) hqp
              (by rw [hnext]; simpa using Ne.symm hqr)]
            exact ⟨rfl, rfl⟩
  | cons b l ih =>
      intro l' a hl hnd hal
      obtain ⟨hprev, hnext, hrest⟩ := hl
      obtain ⟨hbl, hnd'⟩ := List.nodup_cons.mp hnd
      have hbp : b ≠ p := fun he => hbl (by simp [he])
      have hb : b < h.size := hal b (by simp)
      have hnb : (h.cell p).next ≠ some b := by
        rw [hrest.next_eq]
        exact fun he => hbl (by simp [List.mem_of_mem_head? he])
      refine ⟨?_, ?_, ih hrest hnd' fun q hq => hal q (by simp [hq])⟩
      · rw [leafHeap_other hb hbp hnb]
        exact hprev
      · rw [leafHeap_other hb hbp hnb, hnext]
        cases l <;> rfl

section Split

variable {t : BPTree} {l l' : List Slot} {s : Slot} {uppers : List (List Slot)}

theorem LeafNode.congr {n n' : Node} {lo hi : Option Value} (hn : LeafNode P n lo hi)
    (hleaf : n'.isLeaf = n.isLeaf) (hnum : n'.numKeys = n.numKeys) (hkeys : n'.keys = n.keys) :
    LeafNode P n' lo hi := by
  refine ⟨hleaf.trans hn.leaf, ⟨?_, ?_⟩, hn.bounds, ?_, ?_⟩ <;> rw [hnum, hkeys]
  · exact hn.keys.sorted
  · exact hn.keys.typed
  · exact hn.lo
  · exact hn.hi

/-- The lower half of a cut leaf keeps below the first key of the upper one. -/
theorem LeafNode.lower {n : Node} {lo hi : Option Value} {b : Option NodeId}
    (hn : LeafNode P n lo hi) (hpos : 0 < n.numKeys) :
    LeafNode P { n with numKeys := n.numKeys / 2, next := b } lo
      (some (n.keys (n.numKeys / 2))) := by
  have hmid : n.numKeys / 2 < n.numKeys := by omega
  refine ⟨hn.leaf, ⟨?_, ?_⟩, ⟨hn.bounds.lo, ?_⟩, ?_, ?_⟩
  · exact fun i j hij hj => hn.keys.sorted i j hij (Nat.lt_trans hj hmid)
  · exact fun i hi' => hn.keys.typed i (Nat.lt_trans hi' hmid)
  · intro b hb
    rw [← Option.some.inj hb]
    exact hn.keys.typed _ hmid
  · exact fun i hi' => hn.lo i (Nat.lt_trans hi' hmid)
  · intro i hi'
    rw [below_some]
    exact hn.keys.sorted _ _ hi' hmid

theorem upperLeaf_keys {n : Node} {p : NodeId} {i : Nat} (hi : i < (upperLeaf n p).numKeys) :
    (upperLeaf n p).keys i = n.keys (n.numKeys / 2 + i) := if_pos hi

theorem upperLeaf_rowIds {n : Node} {p : NodeId} {i : Nat}
    (hi : i < (upperLeaf n p).numKeys) :
    (upperLeaf n p).rowIds i = n.rowIds (n.numKeys / 2 + i) := if_pos hi

theorem LeafNode.upper (o : WeakOrderOn P Value.lt Value.eq) {n : Node}
    {lo hi : Option Value} {p : NodeId} (hn : LeafNode P n lo hi) (hpos : 0 < n.numKeys) :
    LeafNode P (upperLeaf n p) (some (n.keys (n.numKeys / 2))) hi := by
  have hlen : (upperLeaf n p).numKeys = n.numKeys - n.numKeys / 2 := rfl
  have hmid : P (n.keys (n.numKeys / 2)) := hn.keys.typed _ (by omega)
  refine ⟨rfl, ⟨?_, ?_⟩, ⟨?_, hn.bounds.hi⟩, ?_, ?_⟩
  · intro i j hij hj
    rw [upperLeaf_keys (by omega), upperLeaf_keys hj]
    exact hn.keys.sorted _ _ (by omega) (by omega)
  · intro i hi'
    rw [upperLeaf_keys hi']
    exact hn.keys.typed _ (by omega)
  · intro b hb
    rw [← Option.some.inj hb]
    exact hmid
  · intro i hi'
    rw [upperLeaf_keys hi', atLeast_some]
    cases i with
    | zero => exact o.irrefl hmid
    | succ i =>
        exact o.asymm hmid (hn.keys.typed _ (by omega))
          (hn.keys.sorted _ _ (by omega) (by omega))
  · intro i hi'
    rw [upperLeaf_keys hi']
    exact hn.hi _ (by omega)

/-- Between them the two halves hold what the leaf held. -/
theorem entries_halves (n : Node) (p : NodeId) (b : Option NodeId) :
    entries { n with numKeys := n.numKeys / 2, next := b } ++ entries (upperLeaf n p)
      = entries n := by
  rw [entries, entries, entries, firstN_cut (fun i => (n.keys i, n.rowIds i))
    (Nat.div_le_self n.numKeys 2)]
  congr 1
  refine firstN_congr fun i hi => ?_
  rw [upperLeaf_keys hi, upperLeaf_rowIds hi]

theorem Loose.ids_lt (hl : Loose P t (l ++ s :: l') uppers) :
    ∀ q ∈ ids ((l ++ s :: l') ++ uppers.flatten), q < t.pool.size := by
  intro q hq
  obtain ⟨c, hc, rfl⟩ := mem_ids.mp hq
  exact hl.alloc c hc

/-- The heap with the full leaf cut, as the climb finds it. -/
structure Cut (P : Value → Prop) (h h' : Heap Node) (l l' : List Slot) (s : Slot) : Prop where
  size : h'.size = h.size + 1
  self : h'.cell s.id = { h.cell s.id with
    numKeys := (h.cell s.id).numKeys / 2, next := some h.size }
  new : h'.cell h.size = upperLeaf (h.cell s.id) s.id
  side : ∀ q ∈ ids l ++ ids l', ∃ b, h'.cell q = { h.cell q with prev := b }
  keep : ∀ q, q < h.size → q ∉ ids (l ++ s :: l') → h'.cell q = h.cell q
  linked : Linked h' none (ids l ++ s.id :: h.size :: ids l')

theorem Loose.cut (hl : Loose P t (l ++ s :: l') uppers) :
    Cut P t.pool (leafHeap t.pool s.id) l l' s := by
  obtain ⟨hnl, hnl', _⟩ := hl.notMem
  have hlt := hl.ids_lt
  have hnext : (t.pool.cell s.id).next = (ids l').head? :=
    Linked.next_eq (l := ids l) (by simpa only [ids_append, ids_cons] using hl.linked)
  have hs : s.id < t.pool.size := hl.alloc s (by simp)
  have hin : ∀ q ∈ ids l', q < t.pool.size := fun q hq => hlt q (by
    simp only [ids_append, ids_cons, List.mem_append, List.mem_cons] at hq ⊢
    exact .inl (.inr (.inr hq)))
  have hinl : ∀ q ∈ ids l, q < t.pool.size := fun q hq => hlt q (by
    simp only [ids_append, ids_cons, List.mem_append, List.mem_cons] at hq ⊢
    exact .inl (.inl hq))
  have hmem : ∀ q, (t.pool.cell s.id).next = some q → q ∈ ids l' := fun q hq =>
    List.mem_of_mem_head? (hnext ▸ hq)
  refine ⟨leafHeap_size, leafHeap_self hs fun he => hnl' (hmem _ he),
    leafHeap_new hs fun he => Nat.lt_irrefl _ (hin _ (hmem _ he)), ?_, ?_, ?_⟩
  · intro q hq
    rcases List.mem_append.mp hq with hq | hq
    · exact leafHeap_links (hinl q hq) fun he => hnl (he ▸ hq)
    · exact leafHeap_links (hin q hq) fun he => hnl' (he ▸ hq)
  · intro q hq hnot
    simp only [ids_append, ids_cons, List.mem_append, List.mem_cons, not_or] at hnot
    exact leafHeap_other hq hnot.2.1 fun he => hnot.2.2 (hmem q he)
  · have hchain : Linked t.pool none (ids l ++ s.id :: ids l') := by
      simpa only [ids_append, ids_cons] using hl.linked
    have hnd : (ids l ++ s.id :: ids l').Nodup := by
      have := hl.nodup
      rw [ids_append, ids_append, ids_cons] at this
      exact (List.nodup_append'.mp this).1
    refine hchain.cut hnd fun q hq => hlt q ?_
    simp only [ids_append, ids_cons, List.mem_append, List.mem_cons] at hq ⊢
    exact .inl hq

/-- The level of the leaves once the full one is cut. -/
theorem splitLevel_middle {key : Value} {y : NodeId} (hnl : s.id ∉ ids l)
    (hnl' : s.id ∉ ids l') : splitLevel s.id key y (l ++ s :: l')
      = l ++ ⟨s.id, s.lo, some key⟩ :: ⟨y, some key, s.hi⟩ :: l' := by
  rw [splitLevel_append, splitLevel_cons, splitLevel_of_notMem hnl, splitLevel_of_notMem hnl',
    splitSlot, if_pos rfl]
  rfl

/-- The cut leaf is a split waiting to be told to the parent. -/
theorem Loose.pending (hl : Loose P t (l ++ s :: l') uppers) {r : NodeId} {h' : Heap Node}
    (o : WeakOrderOn P Value.lt Value.eq)
    (hr : t.root = some r) (ht : Tower P t.pool r (l ++ s :: l') uppers)
    (hc : Cut P t.pool h' l l' s) (hfull : (t.pool.cell s.id).numKeys = bptreeOrder) :
    Pending P { t with pool := h' } r (l ++ s :: l') uppers s
      ((t.pool.cell s.id).keys ((t.pool.cell s.id).numKeys / 2)) t.pool.size := by
  obtain ⟨_, _, hnu⟩ := hl.notMem
  have hord : bptreeOrder = 256 := rfl
  have hn := hl.leaf s (by simp)
  have hlt := hl.ids_lt
  obtain ⟨_, _, hdis⟩ := List.nodup_append'.mp (ids_append .. ▸ hl.nodup)
  have hmid : P ((t.pool.cell s.id).keys ((t.pool.cell s.id).numKeys / 2)) :=
    hn.keys.typed _ (by omega)
  have hnum : ∀ q ∈ ids (l ++ s :: l'), q ≠ s.id →
      ∃ b, h'.cell q = { t.pool.cell q with prev := b } := by
    intro q hq hne
    refine hc.side q ?_
    simp only [ids_append, ids_cons, List.mem_append, List.mem_cons] at hq ⊢
    exact hq.imp_right fun h => h.resolve_left hne
  refine ⟨hr, ht.congr ?_ ?_ ?_, hl.nodup, ?_, by simp, fun h => Nat.lt_irrefl _ (hlt _ h), ?_,
    ?_, hn.hi _ (by omega), hmid, ?_, ?_⟩
  · intro q hq
    exact hc.keep q (hlt q (by rw [ids_append]; exact List.mem_append_right _ hq))
      fun h => hdis h hq
  · intro q hq
    by_cases he : q = s.id
    · rw [he, hc.self]
    · obtain ⟨b, hb⟩ := hnum q hq he
      rw [hb]
  · intro hne q hq
    by_cases he : q = s.id
    · rw [he, hc.self]
      show _ ≤ (t.pool.cell s.id).numKeys / 2
      rw [hfull]
      decide
    · obtain ⟨b, hb⟩ := hnum q hq he
      obtain ⟨c, hcm, rfl⟩ := mem_ids.mp hq
      rw [hb]
      exact ht.min_keys hne c hcm
  · intro q hq
    show q < h'.size
    rw [hc.size]
    exact Nat.lt_succ_of_lt (hlt q hq)
  · show _ < h'.size
    rw [hc.size]
    exact Nat.lt_succ_self _
  · intro b hb
    -- the middle key is above the first, which is not below the bound
    exact o.lt_of_le_of_lt (hn.bounds.lo b hb) (hn.keys.typed 0 (by omega)) hmid
      (hn.lo 0 (by omega) b hb) (hn.keys.sorted _ _ (by omega) (by omega))
  · show _ ≤ (h'.cell s.id).numKeys
    rw [hc.self]
    show _ ≤ (t.pool.cell s.id).numKeys / 2
    rw [hfull]
    decide
  · show _ ≤ (h'.cell t.pool.size).numKeys
    rw [hc.new]
    show _ ≤ (t.pool.cell s.id).numKeys - (t.pool.cell s.id).numKeys / 2
    rw [hfull]
    decide

/-- The leaves of the cut chain. -/
def cutLeaves (h : Heap Node) (l l' : List Slot) (s : Slot) : List Slot :=
  l ++ ⟨s.id, s.lo, some ((h.cell s.id).keys ((h.cell s.id).numKeys / 2))⟩ ::
    ⟨h.size, some ((h.cell s.id).keys ((h.cell s.id).numKeys / 2)), s.hi⟩ :: l'

theorem Loose.cut_leaf (o : WeakOrderOn P Value.lt Value.eq)
    (hl : Loose P t (l ++ s :: l') uppers) {h' : Heap Node} (hc : Cut P t.pool h' l l' s)
    (hfull : (t.pool.cell s.id).numKeys = bptreeOrder)
    (hcap : ∀ c ∈ l ++ l', (t.pool.cell c.id).numKeys < bptreeOrder) :
    ∀ c ∈ cutLeaves t.pool l l' s,
      LeafNode P (h'.cell c.id) c.lo c.hi ∧ (h'.cell c.id).numKeys < bptreeOrder := by
  have hord : bptreeOrder = 256 := rfl
  have hn := hl.leaf s (by simp)
  intro c hcm
  simp only [cutLeaves, List.mem_append, List.mem_cons] at hcm
  have hside : c ∈ l ++ l' →
      LeafNode P (h'.cell c.id) c.lo c.hi ∧ (h'.cell c.id).numKeys < bptreeOrder := by
    intro hm
    obtain ⟨b, hb⟩ := hc.side c.id (by rw [← ids_append]; exact mem_ids.mpr ⟨c, hm, rfl⟩)
    rw [hb]
    refine ⟨(hl.leaf c ?_).congr rfl rfl rfl, hcap c hm⟩
    simp only [List.mem_append, List.mem_cons] at hm ⊢
    exact hm.imp_right .inr
  rcases hcm with h | rfl | rfl | h
  · exact hside (List.mem_append_left _ h)
  · rw [hc.self]
    refine ⟨hn.lower (by omega), ?_⟩
    show (t.pool.cell s.id).numKeys / 2 < bptreeOrder
    omega
  · rw [hc.new]
    refine ⟨hn.upper o (by omega), ?_⟩
    show (t.pool.cell s.id).numKeys - (t.pool.cell s.id).numKeys / 2 < bptreeOrder
    omega
  · exact hside (List.mem_append_right _ h)

theorem Cut.contents {h h' : Heap Node} (hc : Cut P h h' l l' s) :
    contents h' (cutLeaves h l l' s) = contents h (l ++ s :: l') := by
  have hside : ∀ c ∈ l ++ l', entries (h'.cell c.id) = entries (h.cell c.id) := by
    intro c hm
    obtain ⟨b, hb⟩ := hc.side c.id (by rw [← ids_append]; exact mem_ids.mpr ⟨c, hm, rfl⟩)
    rw [hb]
    rfl
  rw [cutLeaves, contents_append, contents_cons, contents_cons, contents_append,
    contents_cons, hc.self, hc.new, ← List.append_assoc (entries _), entries_halves,
    contents_congr fun c hm => hside c (List.mem_append_left _ hm),
    contents_congr fun c hm => hside c (List.mem_append_right _ hm)]

/-- A full leaf is cut, and the tree is a tree again with the same contents. -/
theorem Loose.split (o : WeakOrderOn P Value.lt Value.eq)
    (hl : Loose P t (l ++ s :: l') uppers)
    (hfull : (t.pool.cell s.id).numKeys = bptreeOrder)
    (hcap : ∀ c ∈ l ++ l', (t.pool.cell c.id).numKeys < bptreeOrder) :
    ∃ t' leaves uppers', t.splitLeaf s.id = .ok t' ∧ Inv P t' leaves uppers' ∧
      contents t'.pool leaves = contents t.pool (l ++ s :: l') ∧ t'.keyType = t.keyType := by
  obtain ⟨hnl, hnl', _⟩ := hl.notMem
  obtain ⟨r, hr, ht⟩ := hl.tower
  have hcut := hl.cut
  have hleaf := hl.cut_leaf o hcut hfull hcap
  have hp := hl.pending o hr ht hcut hfull
  have hlevels := ht.levels_le hl.nodup hl.ids_lt
  obtain ⟨t', us', hrun, hc⟩ := insertIntoParent_climb o uppers (2 * (t.pool.size + 1))
    (by omega) hp
  have hnd := hc.nodup_all hp
  have hal := fun q hq => (hp.mem_split (q := q) hq).1
  have hlevel : splitLevel s.id _ t.pool.size (l ++ s :: l') = cutLeaves t.pool l l' s :=
    splitLevel_middle hnl hnl'
  rw [hlevel] at hc hnd hal
  have hbody : ∀ c ∈ cutLeaves t.pool l l' s, ∃ p, t'.pool.cell c.id
      = { (leafHeap t.pool s.id).cell c.id with parent := p } :=
    fun c hcm => hc.body c.id (mem_ids.mpr ⟨c, hcm, rfl⟩)
  have hcont : contents t'.pool (cutLeaves t.pool l l' s)
      = contents t.pool (l ++ s :: l') := by
    rw [← hcut.contents]
    refine contents_congr fun c hcm => ?_
    obtain ⟨p, hcell⟩ := hbody c hcm
    rw [hcell]
    rfl
  have hnext : ∀ r, (t.pool.cell s.id).next = some r → r < t.pool.size := by
    intro q hq
    have hlink : (t.pool.cell s.id).next = (ids l').head? :=
      Linked.next_eq (l := ids l) (by simpa only [ids_append, ids_cons] using hl.linked)
    refine hl.ids_lt q ?_
    simp only [ids_append, ids_cons, List.mem_append, List.mem_cons]
    exact .inl (.inr (.inr (List.mem_of_mem_head? (hlink ▸ hq))))
  refine ⟨t', cutLeaves t.pool l l' s, us', ?_, ⟨hc.tower, ?_, hnd, ?_, ?_, ?_, ?_, ?_⟩,
    hcont, hc.keyType⟩
  · rw [splitLeaf_spec (hl.alloc s (by simp)) hfull hnext, hrun]
  · intro c hcm
    obtain ⟨p, hcell⟩ := hbody c hcm
    obtain ⟨h₁, h₂⟩ := hleaf c hcm
    exact ⟨h₁.congr (by rw [hcell]) (by rw [hcell]) (by rw [hcell]), by rw [hcell]; exact h₂⟩
  · intro c hcm
    rcases List.mem_append.mp hcm with h | h
    · exact Nat.lt_of_lt_of_le (hal c.id (mem_ids.mpr ⟨c, h, rfl⟩)) hc.grows
    · exact hc.alloc c.id (mem_ids.mpr ⟨c, h, rfl⟩)
  · have hchain : Linked (leafHeap t.pool s.id) none (ids (cutLeaves t.pool l l' s)) := by
      simpa only [cutLeaves, ids_append, ids_cons] using hcut.linked
    refine hchain.congr fun q hq => ?_
    obtain ⟨p, hcell⟩ := hc.body q hq
    rw [hcell]
    exact ⟨rfl, rfl⟩
  · rw [hc.leftmost, show BPTree.leftmostLeaf _ = _ from hl.leftmost]
    cases l <;> rfl
  · have h₁ := hc.height
    have h₂ := hl.height
    simp only at h₁
    omega
  · rw [hc.size, hcont]
    exact hl.size

end Split

/-! ## The whole insertion -/

section Insert

variable {t : BPTree} {p : NodeId} {key : Value} {pos : Nat}

theorem insert_tie (hleaf : t.findLeaf key = .ok (some p)) (hp : p < t.pool.size)
    (hcap : (t.pool.cell p).numKeys < bptreeOrder)
    (hpos : BPTree.lowerBound (t.pool.cell p) key = .ok pos)
    (hlt : pos < (t.pool.cell p).numKeys)
    (he : ((t.pool.cell p).keys pos).eq key = true) (rowId : Nat) :
    t.insert key rowId
      = .ok ({ t with pool := t.pool.put p (overwritten (t.pool.cell p) pos rowId) }, true) := by
  rw [BPTree.insert]
  simp only [hleaf, Outcome.bind_ok, Heap.get_of_lt hp, hpos,
    keyIs_spec (Nat.le_of_lt hcap)]
  rw [if_pos (by simp [hlt, he]), Node.setRowId_of_lt (by omega), Outcome.bind_ok]
  rfl

/-- What the loop and the two assignments behind it make of the leaf. -/
theorem filled_eq {n : Node} {r : Nat} :
    ({ n with
      keys := setAt (fun i => if pos < i ∧ i ≤ n.numKeys then n.keys (i - 1)
        else n.keys i) pos key
      rowIds := setAt (fun i => if pos < i ∧ i ≤ n.numKeys then n.rowIds (i - 1)
        else n.rowIds i) pos r
      numKeys := n.numKeys + 1 } : Node) = filled n pos key r := by
  simp only [filled, Node.mk.injEq, true_and, and_true]
  constructor <;> funext i <;> simp only [setAt, openAt] <;> repeat' split
  all_goals first | rfl | omega

theorem insert_new (hleaf : t.findLeaf key = .ok (some p)) (hp : p < t.pool.size)
    (hcap : (t.pool.cell p).numKeys < bptreeOrder)
    (hpos : BPTree.lowerBound (t.pool.cell p) key = .ok pos)
    (hle : pos ≤ (t.pool.cell p).numKeys)
    (hne : pos < (t.pool.cell p).numKeys → ((t.pool.cell p).keys pos).eq key = false)
    (rowId : Nat) :
    t.insert key rowId =
      let t' := { t with pool := t.pool.put p (filled (t.pool.cell p) pos key rowId)
                         size := t.size + 1 }
      if bptreeOrder ≤ (t.pool.cell p).numKeys + 1 then
        t'.splitLeaf p >>= fun t => .ok (t, true)
      else .ok (t', true) := by
  rw [BPTree.insert]
  simp only [hleaf, Outcome.bind_ok, Heap.get_of_lt hp, hpos,
    keyIs_spec (Nat.le_of_lt hcap)]
  rw [if_neg (by simpa using hne), shiftEntries_spec pos _ _ hcap hle, Outcome.bind_ok,
    Node.setKey_of_lt (by omega), Outcome.bind_ok, Node.setRowId_of_lt (by omega),
    Outcome.bind_ok]
  simp only [filled_eq]

/-- `insert` keeps the invariant and is `upsert` on the contents. -/
theorem Inv.insert (o : WeakOrderOn P Value.lt Value.eq) {leaves : List Slot}
    {uppers : List (List Slot)} (hi : Inv P t leaves uppers) (hk : P key) (rowId : Nat) :
    ∃ t' leaves' uppers', t.insert key rowId = .ok (t', true) ∧ Inv P t' leaves' uppers' ∧
      contents t'.pool leaves'
        = upsert Value.lt Value.eq key rowId (contents t.pool leaves) ∧
      t'.keyType = t.keyType := by
  obtain ⟨s, hs, hleaf, hlo, hhi⟩ := hi.findLeaf o hk
  obtain ⟨l, l', rfl⟩ := List.append_of_mem hs
  obtain ⟨hleft, hright⟩ := hi.sides o hk hlo hhi
  obtain ⟨hn, hcap⟩ := hi.leaf s hs
  obtain ⟨pos, hpos, hsp⟩ := lowerBound_spec o hn.keys hk (Nat.le_of_lt hcap)
  have hal : s.id < t.pool.size := hi.alloc s (List.mem_append_left _ hs)
  have hty := hi.contents_typed
  have hlen := length_upsert o (v := rowId) hk hty (hi.ascending o)
  rw [hi.lookup_leaf o hk hlo hhi, lookup_entries o hn.keys hk hsp, ← hi.size] at hlen
  have hups : upsert Value.lt Value.eq key rowId (contents t.pool (l ++ s :: l'))
      = contents t.pool l ++ upsert Value.lt Value.eq key rowId (entries (t.pool.cell s.id))
        ++ contents t.pool l' := by
    rw [contents_append, contents_cons, upsert_append_left hleft,
      upsert_append_right o hk _ hright, List.append_assoc]
    exact fun e he => hty e (by simp [contents_append, contents_cons, he])
  by_cases htie : pos < (t.pool.cell s.id).numKeys ∧
      ((t.pool.cell s.id).keys pos).eq key = true
  · rw [if_pos htie] at hlen
    rw [← entries_overwritten hsp htie.1 htie.2] at hups
    have hsize : t.size = (contents t.pool l ++ entries (overwritten (t.pool.cell s.id) pos
        rowId) ++ contents t.pool l').length := by
      rw [← hups]
      simpa using hlen.symm
    obtain ⟨hloose, hcont⟩ := hi.put (n := overwritten (t.pool.cell s.id) pos rowId)
      hn.overwritten rfl rfl rfl (Nat.le_refl _) hsize
    refine ⟨_, _, _, insert_tie hleaf hal hcap hpos htie.1 htie.2 rowId, hloose.inv ?_,
      hcont.trans hups.symm, rfl⟩
    intro c hc
    show ((t.pool.put s.id _).cell c.id).numKeys < _
    rw [Heap.put_cell]
    split
    · exact hcap
    · exact (hi.leaf c hc).cap
  · have hne : pos < (t.pool.cell s.id).numKeys →
        ((t.pool.cell s.id).keys pos).eq key = false := fun hlt => by
      simpa using fun he => htie ⟨hlt, he⟩
    rw [if_neg htie] at hlen
    rw [← entries_filled o hn.keys hk hsp hne] at hups
    have hsize : t.size + 1 = (contents t.pool l ++ entries (filled (t.pool.cell s.id) pos key
        rowId) ++ contents t.pool l').length := by
      rw [← hups]
      simpa using hlen.symm
    obtain ⟨hloose, hcont⟩ := hi.put (n := filled (t.pool.cell s.id) pos key rowId)
      (hn.filled o hk hsp hne hlo hhi) rfl rfl rfl (Nat.le_succ _) hsize
    have hrest : ∀ c ∈ l ++ l', ((t.pool.put s.id
        (filled (t.pool.cell s.id) pos key rowId)).cell c.id).numKeys < bptreeOrder := by
      intro c hc
      obtain ⟨hnl, hnl', _⟩ := hi.loose.notMem
      rw [Heap.put_cell_ne]
      · refine (hi.leaf c ?_).cap
        simp only [List.mem_append, List.mem_cons] at hc ⊢
        exact hc.imp_right .inr
      · intro he
        rcases List.mem_append.mp hc with h | h
        · exact hnl (mem_ids.mpr ⟨c, h, he⟩)
        · exact hnl' (mem_ids.mpr ⟨c, h, he⟩)
    have hself : ((t.pool.put s.id (filled (t.pool.cell s.id) pos key rowId)).cell
        s.id).numKeys = (t.pool.cell s.id).numKeys + 1 := by
      rw [Heap.put_cell_self]
      rfl
    rw [insert_new hleaf hal hcap hpos hsp.le hne rowId]
    by_cases hfull : bptreeOrder ≤ (t.pool.cell s.id).numKeys + 1
    · obtain ⟨t', leaves', uppers', hrun, hinv, hsame, hty'⟩ :=
        hloose.split o (hself.trans (by omega)) hrest
      refine ⟨t', leaves', uppers', ?_, hinv, (hsame.trans hcont).trans hups.symm, hty'⟩
      simp only [if_pos hfull, hrun, Outcome.bind_ok]
    · refine ⟨_, _, _, if_neg hfull, hloose.inv ?_, hcont.trans hups.symm, rfl⟩
      intro c hc
      simp only [List.mem_append, List.mem_cons] at hc
      rcases hc with h | rfl | h
      · exact hrest c (List.mem_append_left _ h)
      · exact hself ▸ Nat.lt_of_not_le hfull
      · exact hrest c (List.mem_append_right _ h)

end Insert

end FlexQL.Proofs
