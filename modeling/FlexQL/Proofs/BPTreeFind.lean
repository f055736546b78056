import FlexQL.Proofs.BPTreeClimb
import Mathlib.Data.List.Perm.Subperm

/-!
# Finding a key

`find_leaf` walks from the root to the one leaf whose interval holds the key.
The levels are ordered left to right, so the keys of every other leaf are on
one side of it, and what the walk finds in that leaf is what the whole tree
contains.
-/

namespace FlexQL.Proofs

open Lib FlexQL.Ref FlexQL.Spec

variable {P : Value → Prop}

/-! ## Levels are ordered -/

/-- The interval of `s` ends where or before that of `s'` begins. -/
def Before (s s' : Slot) : Prop :=
  ∃ b b', s.hi = some b ∧ s'.lo = some b' ∧ b'.lt b = false

section Order

variable {n : Node} {lo hi : Option Value}

theorem InnerNode.kid_hi (o : WeakOrderOn P Value.lt Value.eq)
    (hn : InnerNode P n lo hi) {i : Nat} (hi' : i ≤ n.numKeys) {b : Value}
    (hb : hi = some b) : ∃ c, (kidSlot n lo hi i).hi = some c ∧ P c ∧ b.lt c = false := by
  by_cases h : i = n.numKeys
  · exact ⟨b, by simp [kidSlot, h, hb], hn.bounds.hi b hb, o.irrefl (hn.bounds.hi b hb)⟩
  · have hlt := hn.keys.typed i (by omega)
    exact ⟨n.keys i, by simp [kidSlot, h], hlt,
      o.asymm hlt (hn.bounds.hi b hb) (hn.hi i (by omega) b hb)⟩

theorem InnerNode.kid_lo (o : WeakOrderOn P Value.lt Value.eq)
    (hn : InnerNode P n lo hi) {i : Nat} (hi' : i ≤ n.numKeys) {b : Value}
    (hb : lo = some b) : ∃ c, (kidSlot n lo hi i).lo = some c ∧ P c ∧ c.lt b = false := by
  by_cases h : i = 0
  · exact ⟨b, by simp [kidSlot, h, hb], hn.bounds.lo b hb, o.irrefl (hn.bounds.lo b hb)⟩
  · have hlt := hn.keys.typed (i - 1) (by omega)
    exact ⟨n.keys (i - 1), by simp [kidSlot, h], hlt,
      o.asymm (hn.bounds.lo b hb) hlt (hn.lo (i - 1) (by omega) b hb)⟩

/-- The children of one node are ordered. -/
theorem InnerNode.kids_before (o : WeakOrderOn P Value.lt Value.eq)
    (hn : InnerNode P n lo hi) : (slotsOf n lo hi).Pairwise Before := by
  rw [slotsOf, firstN, List.pairwise_map]
  refine List.Pairwise.imp_of_mem ?_ (List.pairwise_lt_range)
  intro i j hi' hj hij
  rw [List.mem_range] at hi' hj
  refine ⟨n.keys i, n.keys (j - 1), by simp [kidSlot, show i ≠ n.numKeys by omega],
    by simp [kidSlot, show j ≠ 0 by omega], ?_⟩
  rcases Nat.lt_or_ge i (j - 1) with h | h
  · exact o.asymm (hn.keys.typed _ (by omega)) (hn.keys.typed _ (by omega))
      (hn.keys.sorted _ _ h (by omega))
  · rw [show j - 1 = i by omega]
    exact o.irrefl (hn.keys.typed _ (by omega))

/-- Every level of a tower is ordered. -/
theorem Tower.before (o : WeakOrderOn P Value.lt Value.eq) {h : Heap Node} {r : NodeId} :
    ∀ {us : List (List Slot)} {l : List Slot}, Tower P h r l us → l.Pairwise Before := by
  intro us
  induction us with
  | nil =>
      intro l ht
      obtain ⟨rfl, _⟩ := ht
      exact List.pairwise_singleton _ _
  | cons u us ih =>
      intro l ht
      obtain ⟨rfl, hin, _, hup⟩ := ht
      rw [List.pairwise_flatMap]
      refine ⟨fun s hs => (hin s hs).node.kids_before o, ?_⟩
      refine List.Pairwise.imp_of_mem ?_ (ih hup)
      -- a child keeps inside the interval of its parent on either side
      rintro s s' hs hs' ⟨b, b', hb, hb', hle⟩ c hc c' hc'
      obtain ⟨i, hi, rfl⟩ := mem_slotsOf.mp hc
      obtain ⟨j, hj, rfl⟩ := mem_slotsOf.mp hc'
      obtain ⟨d, hd, hPd, hbd⟩ := (hin s hs).node.kid_hi o hi hb
      obtain ⟨d', hd', hPd', hbd'⟩ := (hin s' hs').node.kid_lo o hj hb'
      refine ⟨d, d', hd, hd', ?_⟩
      have hPb := (hin s hs).node.bounds.hi b hb
      have hPb' := (hin s' hs').node.bounds.lo b' hb'
      by_contra hlt
      rw [Bool.not_eq_false] at hlt
      have h₁ := o.lt_of_le_of_lt hPb' hPd' hPd hbd' hlt
      have h₂ := o.lt_of_lt_of_le hPb' hPd hPb h₁ hbd
      rw [hle] at h₂
      exact absurd h₂ (by simp)

end Order

/-! ## The walk to a leaf -/

/-- A key in the interval of an internal node goes to the child whose interval
holds it. -/
theorem InnerNode.route (o : WeakOrderOn P Value.lt Value.eq) {h : Heap Node} {s : Slot}
    (hok : InnerOK P h s) (hal : s.id < h.size) {key : Value} (hk : P key)
    (hlo : AtLeast s.lo key) (hhi : Below s.hi key) (fuel : Nat) :
    ∃ c ∈ kidSlots h s, AtLeast c.lo key ∧ Below c.hi key ∧
      BPTree.findLeafLoop h key (fuel + 1) (some s.id)
        = BPTree.findLeafLoop h key fuel (some c.id) := by
  obtain ⟨hn, hpos, hcap, _⟩ := hok
  set n := h.cell s.id with hdef
  obtain ⟨idx, hidx, hsp⟩ := lowerBound_spec o hn.keys hk (Nat.le_of_lt hcap)
  have hle := hsp.le
  have hmem : ∀ i, i ≤ n.numKeys → kidSlot n s.lo s.hi i ∈ kidSlots h s := fun i hi =>
    mem_slotsOf.mpr ⟨i, hi, rfl⟩
  -- the separator left of the child is not above the key
  have hleft : AtLeast (kidSlot n s.lo s.hi idx).lo key := by
    intro b hb
    simp only [kidSlot] at hb
    split at hb
    · exact hlo b hb
    · rw [← Option.some.inj hb]
      exact o.asymm (hn.keys.typed _ (by omega)) hk (hsp.below _ (by omega))
  have hstep : ∀ i, i ≤ n.numKeys → (n.child i >>= fun c => BPTree.findLeafLoop h key fuel c)
      = BPTree.findLeafLoop h key fuel (some (childId n i)) := by
    intro i hi
    rw [Node.child_of_le (by omega), Outcome.bind_ok, hn.kid i hi]
  rw [BPTree.findLeafLoop, Heap.get_of_lt hal, Outcome.bind_ok, ← hdef,
    if_neg (by simp [hn.inner]), hidx, Outcome.bind_ok]
  by_cases hlast : idx = n.numKeys
  · refine ⟨_, hmem idx hle, hleft, ?_, by rw [if_pos hlast, hstep idx hle]; rfl⟩
    intro b hb
    exact hhi b (by simpa [kidSlot, hlast] using hb)
  · rw [if_neg hlast, Node.key_of_lt (by omega), Outcome.bind_ok]
    by_cases htie : (n.keys idx).eq key = true
    · refine ⟨_, hmem (idx + 1) (by omega), ?_, ?_,
        by rw [if_pos htie, hstep _ (by omega)]; rfl⟩
      · intro b hb
        simp only [kidSlot, if_neg (Nat.succ_ne_zero idx), Nat.add_sub_cancel] at hb
        rw [← Option.some.inj hb]
        exact ((o.eq_iff (hn.keys.typed _ (by omega)) hk).1 htie).2
      · intro b hb
        simp only [kidSlot] at hb
        split at hb
        · exact hhi b hb
        · rw [← Option.some.inj hb]
          exact Splits.lt_of_tie o hn.keys hk (by omega) htie _ (by omega) (by omega)
    · refine ⟨_, hmem idx hle, hleft, ?_, by rw [if_neg htie, hstep idx hle]; rfl⟩
      intro b hb
      simp only [kidSlot, if_neg hlast] at hb
      rw [← Option.some.inj hb]
      exact hsp.lt_of_not_tie o hn.keys hk (fun _ => by simpa using htie) _ (Nat.le_refl _)
        (by omega)

/-- The walk reaches the level `l` after one step for every level above it. -/
theorem Tower.route (o : WeakOrderOn P Value.lt Value.eq) {h : Heap Node} {r : NodeId}
    {key : Value} (hk : P key) : ∀ {us : List (List Slot)} {l : List Slot},
    Tower P h r l us → (∀ q ∈ ids us.flatten, q < h.size) → ∀ fuel,
    ∃ s ∈ l, AtLeast s.lo key ∧ Below s.hi key ∧
      BPTree.findLeafLoop h key (us.length + fuel) (some r)
        = BPTree.findLeafLoop h key fuel (some s.id) := by
  intro us
  induction us with
  | nil =>
      intro l ht _ fuel
      obtain ⟨rfl, _⟩ := ht
      exact ⟨_, List.mem_singleton_self _, by simp [AtLeast], by simp [Below],
        by rw [List.length_nil, Nat.zero_add]⟩
  | cons u us ih =>
      intro l ht hal fuel
      obtain ⟨rfl, hin, _, hup⟩ := ht
      simp only [List.flatten_cons, ids_append, List.mem_append] at hal
      obtain ⟨s, hs, hlo, hhi, hwalk⟩ := ih hup (fun q hq => hal q (.inr hq)) (fuel + 1)
      obtain ⟨c, hc, hclo, hchi, hstep⟩ := InnerNode.route o (hin s hs)
        (hal s.id (.inl (mem_ids.mpr ⟨s, hs, rfl⟩))) hk hlo hhi fuel
      refine ⟨c, List.mem_flatMap.mpr ⟨s, hs, hc⟩, hclo, hchi, ?_⟩
      rw [List.length_cons, Nat.add_assoc, Nat.add_comm 1 fuel, hwalk, hstep]

/-- No level is empty. -/
theorem Tower.ne_nil {h : Heap Node} {r : NodeId} : ∀ {us : List (List Slot)}
    {l : List Slot}, Tower P h r l us → l ≠ [] := by
  intro us
  induction us with
  | nil =>
      intro l ht
      obtain ⟨rfl, _⟩ := ht
      exact List.cons_ne_nil _ _
  | cons u us ih =>
      intro l ht
      obtain ⟨rfl, _, _, hup⟩ := ht
      obtain ⟨s, hs⟩ := List.exists_mem_of_ne_nil u (ih hup)
      exact List.ne_nil_of_mem (List.mem_flatMap.mpr
        ⟨s, hs, mem_slotsOf.mpr ⟨0, Nat.zero_le _, rfl⟩⟩)

theorem Tower.levels_lt {h : Heap Node} {r : NodeId} : ∀ {us : List (List Slot)}
    {l : List Slot}, Tower P h r l us → us.length < (l ++ us.flatten).length := by
  intro us
  induction us with
  | nil =>
      intro l ht
      obtain ⟨rfl, _⟩ := ht
      exact Nat.zero_lt_one
  | cons u us ih =>
      intro l ht
      have hl := List.length_pos_of_ne_nil ht.ne_nil
      have hu := ih ht.2.2.2
      simp only [List.length_append, List.flatten_cons, List.length_cons] at hu ⊢
      omega

/-- There are no more levels than nodes, so the walk has fuel. -/
theorem Tower.levels_le {h : Heap Node} {r : NodeId} {us : List (List Slot)}
    {l : List Slot} (ht : Tower P h r l us) (hnd : (ids (l ++ us.flatten)).Nodup)
    (hal : ∀ q ∈ ids (l ++ us.flatten), q < h.size) : us.length < h.size := by
  have hlen : (ids (l ++ us.flatten)).length ≤ (List.range h.size).length :=
    (hnd.subperm fun q hq => List.mem_range.mpr (hal q hq)).length_le
  rw [List.length_range, ids, List.length_map] at hlen
  exact Nat.lt_of_lt_of_le ht.levels_lt hlen

theorem Inv.ids_lt {t : BPTree} {leaves : List Slot} {uppers : List (List Slot)}
    (hi : Inv P t leaves uppers) : ∀ q ∈ ids (leaves ++ uppers.flatten), q < t.pool.size := by
  intro q hq
  obtain ⟨s, hs, rfl⟩ := mem_ids.mp hq
  exact hi.alloc s hs

/-- `find_leaf` returns the leaf whose interval holds the key. -/
theorem Inv.findLeaf (o : WeakOrderOn P Value.lt Value.eq) {t : BPTree}
    {leaves : List Slot} {uppers : List (List Slot)} (hi : Inv P t leaves uppers)
    {key : Value} (hk : P key) :
    ∃ s ∈ leaves, t.findLeaf key = .ok (some s.id) ∧ AtLeast s.lo key ∧ Below s.hi key := by
  obtain ⟨r, hr, ht⟩ := hi.tower
  have hsize := ht.levels_le hi.nodup hi.ids_lt
  obtain ⟨f, hf⟩ : ∃ f, t.pool.size = uppers.length + (f + 1) :=
    ⟨t.pool.size - uppers.length - 1, by omega⟩
  obtain ⟨s, hs, hlo, hhi, hwalk⟩ := ht.route o hk
    (fun q hq => hi.ids_lt q (by rw [ids_append]; exact List.mem_append_right _ hq)) (f + 1)
  refine ⟨s, hs, ?_, hlo, hhi⟩
  rw [BPTree.findLeaf, hr, hf, hwalk, BPTree.findLeafLoop,
    Heap.get_of_lt (hi.alloc s (List.mem_append_left _ hs)), Outcome.bind_ok,
    if_pos (hi.leaf s hs).node.leaf]

/-! ## What the tree contains -/

section Entries

variable {n : Node} {lo hi : Option Value} {key : Value} {pos : Nat}

theorem entries_typed (hn : Keys P n) : ∀ e ∈ entries n, P e.1 := by
  intro e he
  obtain ⟨i, hi, rfl⟩ := mem_firstN.mp he
  exact hn.typed i hi

theorem entries_ascending (hn : Keys P n) : Ascending Value.lt (entries n) := by
  rw [Ascending, entries, firstN, List.pairwise_map]
  refine List.Pairwise.imp_of_mem ?_ (List.pairwise_lt_range)
  intro i j hi hj hij
  exact hn.sorted i j hij (List.mem_range.mp hj)

/-- The entries below `key`, the one at `pos` and those above it. -/
theorem entries_split (hp : pos < n.numKeys) :
    entries n = firstN (fun i => (n.keys i, n.rowIds i)) pos ++ (n.keys pos, n.rowIds pos) ::
      firstN (fun i => (n.keys (pos + 1 + i), n.rowIds (pos + 1 + i)))
        (n.numKeys - (pos + 1)) :=
  firstN_split _ hp

/-- A search in one leaf. -/
theorem lookup_entries (o : WeakOrderOn P Value.lt Value.eq) (hn : Keys P n)
    (hk : P key) (hs : Splits n key pos) :
    lookup Value.eq (entries n) key =
      if pos < n.numKeys ∧ (n.keys pos).eq key = true then some (n.rowIds pos) else none := by
  split
  · next h =>
      rw [entries_split h.1, lookup_append_left, lookup_cons, if_pos h.2]
      intro e he
      obtain ⟨i, hi, rfl⟩ := mem_firstN.mp he
      exact o.ne_of_lt (hn.typed i (by omega)) hk (hs.below i hi)
  · next h =>
      refine lookup_eq_none fun e he => ?_
      obtain ⟨i, hi, rfl⟩ := mem_firstN.mp he
      by_cases hip : i < pos
      · exact o.ne_of_lt (hn.typed i hi) hk (hs.below i hip)
      · refine o.ne_of_gt (hn.typed i hi) hk (hs.lt_of_not_tie o hn hk (fun hp => ?_) i
          (by omega) hi)
        simpa using fun he => h ⟨hp, he⟩

end Entries

/-- The keys of the leaves on either side of the leaf of `key`. -/
theorem Inv.sides (o : WeakOrderOn P Value.lt Value.eq) {t : BPTree} {l l' : List Slot}
    {s : Slot} {uppers : List (List Slot)} (hi : Inv P t (l ++ s :: l') uppers)
    {key : Value} (hk : P key) (hlo : AtLeast s.lo key) (hhi : Below s.hi key) :
    (∀ e ∈ contents t.pool l, e.1.lt key = true) ∧
      (∀ e ∈ contents t.pool l', key.lt e.1 = true) := by
  obtain ⟨r, _, ht⟩ := hi.tower
  obtain ⟨_, hright, hleft⟩ := List.pairwise_append.mp (ht.before o)
  constructor
  · intro e he
    obtain ⟨c, hc, hec⟩ := List.mem_flatMap.mp he
    obtain ⟨i, hi', rfl⟩ := mem_firstN.mp hec
    have hn := (hi.leaf c (by simp [hc])).node
    obtain ⟨b, b', hb, hb', hle⟩ := hleft c hc s (by simp)
    have hPb := hn.bounds.hi b hb
    have hPb' := ht.bounds s (by simp) |>.lo b' hb'
    -- the key of `c` is below `b`, `b` is not above `b'`, and `b'` is not above `key`
    have h₁ := o.lt_of_lt_of_le (hn.keys.typed i hi') hPb hPb' (hn.hi i hi' b hb) hle
    exact o.lt_of_lt_of_le (hn.keys.typed i hi') hPb' hk h₁ (hlo b' hb')
  · intro e he
    obtain ⟨c, hc, hec⟩ := List.mem_flatMap.mp he
    obtain ⟨i, hi', rfl⟩ := mem_firstN.mp hec
    have hn := (hi.leaf c (by simp [hc])).node
    obtain ⟨b, b', hb, hb', hle⟩ := List.rel_of_pairwise_cons hright hc
    have hPb := ht.bounds s (by simp) |>.hi b hb
    have hPb' := hn.bounds.lo b' hb'
    have h₁ := o.lt_of_lt_of_le hk hPb hPb' (hhi b hb) hle
    exact o.lt_of_lt_of_le hk hPb' (hn.keys.typed i hi') h₁ (hn.lo i hi' b' hb')

section Contents

variable {t : BPTree} {leaves : List Slot} {uppers : List (List Slot)}

theorem contents_append (h : Heap Node) (l l' : List Slot) :
    contents h (l ++ l') = contents h l ++ contents h l' := List.flatMap_append

theorem contents_cons (h : Heap Node) (s : Slot) (l : List Slot) :
    contents h (s :: l) = entries (h.cell s.id) ++ contents h l := rfl

theorem Inv.contents_typed (hi : Inv P t leaves uppers) :
    ∀ e ∈ contents t.pool leaves, P e.1 := by
  intro e he
  obtain ⟨s, hs, hes⟩ := List.mem_flatMap.mp he
  exact entries_typed (hi.leaf s hs).node.keys e hes

/-- The leaves, left to right, list their keys in ascending order. -/
theorem Inv.ascending (o : WeakOrderOn P Value.lt Value.eq) (hi : Inv P t leaves uppers) :
    Ascending Value.lt (contents t.pool leaves) := by
  obtain ⟨r, _, ht⟩ := hi.tower
  rw [Ascending, contents, List.pairwise_flatMap]
  refine ⟨fun s hs => entries_ascending (hi.leaf s hs).node.keys, ?_⟩
  refine List.Pairwise.imp_of_mem ?_ (ht.before o)
  rintro s s' hs hs' ⟨b, b', hb, hb', hle⟩ e he e' he'
  obtain ⟨i, hi₁, rfl⟩ := mem_firstN.mp he
  obtain ⟨j, hj, rfl⟩ := mem_firstN.mp he'
  have hn := (hi.leaf s hs).node
  have hn' := (hi.leaf s' hs').node
  have hPb := hn.bounds.hi b hb
  have hPb' := hn'.bounds.lo b' hb'
  have h₁ := o.lt_of_lt_of_le (hn.keys.typed i hi₁) hPb hPb' (hn.hi i hi₁ b hb) hle
  exact o.lt_of_lt_of_le (hn.keys.typed i hi₁) hPb' (hn'.keys.typed j hj) h₁
    (hn'.lo j hj b' hb')

/-- Only the leaf of a key can hold it. -/
theorem Inv.lookup_leaf (o : WeakOrderOn P Value.lt Value.eq) {l l' : List Slot} {s : Slot}
    (hi : Inv P t (l ++ s :: l') uppers) {key : Value} (hk : P key)
    (hlo : AtLeast s.lo key) (hhi : Below s.hi key) :
    lookup Value.eq (contents t.pool (l ++ s :: l')) key
      = lookup Value.eq (entries (t.pool.cell s.id)) key := by
  obtain ⟨hleft, hright⟩ := hi.sides o hk hlo hhi
  have hty := hi.contents_typed
  rw [contents_append, contents_cons] at hty ⊢
  rw [lookup_append_left, lookup_append_right]
  · exact fun e he => o.ne_of_gt (hty e (by simp [he])) hk (hright e he)
  · exact fun e he => o.ne_of_lt (hty e (by simp [he])) hk (hleft e he)

/-- `find` looks the key up in what the leaves contain. -/
theorem Inv.find (o : WeakOrderOn P Value.lt Value.eq) (hi : Inv P t leaves uppers)
    {key : Value} (hk : P key) :
    t.find key = .ok (match lookup Value.eq (contents t.pool leaves) key with
      | some r => BPTree.toInt64 r
      | none => -1) := by
  obtain ⟨s, hs, hleaf, hlo, hhi⟩ := hi.findLeaf o hk
  obtain ⟨l, l', rfl⟩ := List.append_of_mem hs
  obtain ⟨hn, hcap⟩ := hi.leaf s hs
  obtain ⟨pos, hpos, hsp⟩ := lowerBound_spec o hn.keys hk (Nat.le_of_lt hcap)
  rw [hi.lookup_leaf o hk hlo hhi, lookup_entries o hn.keys hk hsp]
  simp only [BPTree.find, hleaf, Outcome.bind_ok, hpos,
    Heap.get_of_lt (hi.alloc s (List.mem_append_left _ hs)), keyIs_spec (Nat.le_of_lt hcap)]
  by_cases hf : pos < (t.pool.cell s.id).numKeys ∧ ((t.pool.cell s.id).keys pos).eq key = true
  · rw [if_pos hf, if_pos (by simpa using hf), Node.rowId_of_lt (by omega)]
    rfl
  · rw [if_neg hf, if_neg (by simpa using hf)]

end Contents

end FlexQL.Proofs
