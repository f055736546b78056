import FlexQL.Proofs.BPTreeMap

/-!
# Order and links of the nodes

The invariant speaks of levels and slots; `OrderLinks` speaks of nodes and
pointers. This module reads the second off the first. A node that hangs below
another has a slot, its interval lies inside the other's, and the leaf level
is both the chain and what a depth-first walk collects.
-/

namespace FlexQL.Proofs

open Lib FlexQL.Ref FlexQL.Spec

section Nodes

variable {P : Value → Prop} {h : Heap Node}

/-- An internal slot of a tower, and where its children are. -/
theorem Tower.inner_mem {r : NodeId} : ∀ {us : List (List Slot)} {l : List Slot},
    Tower P h r l us → ∀ s ∈ us.flatten,
    InnerOK P h s ∧ ∀ c ∈ kidSlots h s, c ∈ l ++ us.flatten := by
  intro us
  induction us with
  | nil => intro l _ s hs; exact absurd hs (by simp)
  | cons u us ih =>
      intro l ht s hs
      obtain ⟨hkids, hin, _, hup⟩ := ht
      rw [List.flatten_cons, List.mem_append] at hs
      rcases hs with hs | hs
      · refine ⟨hin s hs, fun c hc => List.mem_append_left _ ?_⟩
        rw [← hkids]
        exact List.mem_flatMap.mpr ⟨s, hs, hc⟩
      · obtain ⟨hok, hk⟩ := ih hup s hs
        exact ⟨hok, fun c hc => List.mem_append_right _ (hk c hc)⟩

/-- The root's slot is the unbounded one. -/
theorem Tower.root_slot {r : NodeId} : ∀ {us : List (List Slot)} {l : List Slot},
    Tower P h r l us →
    (⟨r, none, none⟩ : Slot) ∈ l ++ us.flatten ∧ (h.cell r).parent = none := by
  intro us
  induction us with
  | nil =>
      intro l ht
      obtain ⟨rfl, hr⟩ := ht
      exact ⟨by simp, hr⟩
  | cons u us ih =>
      intro l ht
      obtain ⟨hm, hr⟩ := ih ht.2.2.2
      exact ⟨List.mem_append_right _ hm, hr⟩

/-- A key inside a child's interval is inside the node's. -/
theorem InnerNode.kid_within (o : WeakOrderOn P Value.lt Value.eq) {n : Node}
    {lo hi : Option Value} (hn : InnerNode P n lo hi) {i : Nat} (hi' : i ≤ n.numKeys)
    {k : Value} (hk : P k) (hlo : AtLeast (kidSlot n lo hi i).lo k)
    (hhi : Below (kidSlot n lo hi i).hi k) : AtLeast lo k ∧ Below hi k := by
  constructor
  · intro b hb
    obtain ⟨c, hc, hPc, hcb⟩ := hn.kid_lo o hi' hb
    have hPb := hn.bounds.lo b hb
    by_contra hlt
    rw [Bool.not_eq_false] at hlt
    have := o.lt_of_lt_of_le hk hPb hPc hlt hcb
    rw [hlo c hc] at this
    exact absurd this (by simp)
  · intro b hb
    obtain ⟨c, hc, hPc, hbc⟩ := hn.kid_hi o hi' hb
    exact o.lt_of_lt_of_le hk hPc (hn.bounds.hi b hb) (hhi c hc) hbc

variable {t : BPTree} {leaves : List Slot} {uppers : List (List Slot)}

/-- The slot of an internal node is on an upper level. -/
theorem Inv.upper_of_inner (hi : Inv P t leaves uppers) {s : Slot}
    (hs : s ∈ leaves ++ uppers.flatten) (hin : (t.pool.cell s.id).isLeaf = false) :
    InnerOK P t.pool s ∧ ∀ c ∈ kidSlots t.pool s, c ∈ leaves ++ uppers.flatten := by
  obtain ⟨r, _, ht⟩ := hi.tower
  rcases List.mem_append.mp hs with hs | hs
  · rw [(hi.leaf s hs).node.leaf] at hin
    exact absurd hin (by simp)
  · exact ht.inner_mem s hs

/-- A node below the node of a slot has a slot of its own, inside it. -/
theorem Inv.under (o : WeakOrderOn P Value.lt Value.eq) (hi : Inv P t leaves uppers)
    {p q : NodeId} (hu : Under t.pool p q) {s : Slot} (hs : s ∈ leaves ++ uppers.flatten)
    (hp : s.id = p) : ∃ c ∈ leaves ++ uppers.flatten, c.id = q ∧
      ∀ k, P k → AtLeast c.lo k → Below c.hi k → AtLeast s.lo k ∧ Below s.hi k := by
  induction hu generalizing s with
  | refl p => exact ⟨s, hs, hp, fun k _ hlo hhi => ⟨hlo, hhi⟩⟩
  | @child p c q i hleaf hi' hc hu ih =>
      subst hp
      obtain ⟨hok, hkids⟩ := hi.upper_of_inner hs hleaf
      have hid : childId (t.pool.cell s.id) i = c := by rw [childId, hc]; rfl
      obtain ⟨d, hd, hdq, hin⟩ := ih (hkids _ (mem_slotsOf.mpr ⟨i, hi', rfl⟩)) hid
      refine ⟨d, hd, hdq, fun k hk hlo hhi => ?_⟩
      obtain ⟨h₁, h₂⟩ := hin k hk hlo hhi
      exact hok.node.kid_within o hi' hk h₁ h₂

/-- The keys of a node lie in its interval, in ascending order. -/
theorem Inv.slot_keys (o : WeakOrderOn P Value.lt Value.eq) (hi : Inv P t leaves uppers)
    {s : Slot} (hs : s ∈ leaves ++ uppers.flatten) :
    Keys P (t.pool.cell s.id) ∧ ∀ i, i < (t.pool.cell s.id).numKeys →
      AtLeast s.lo ((t.pool.cell s.id).keys i) ∧ Below s.hi ((t.pool.cell s.id).keys i) := by
  rcases List.mem_append.mp hs with hl | hu
  · have hn := (hi.leaf s hl).node
    exact ⟨hn.keys, fun i h => ⟨hn.lo i h, hn.hi i h⟩⟩
  · obtain ⟨r, _, ht⟩ := hi.tower
    have hn := (ht.inner_mem s hu).1.node
    exact ⟨hn.keys, fun i h =>
      ⟨(hn.lo i h).atLeast o hn.bounds.lo (hn.keys.typed i h), hn.hi i h⟩⟩

/-- The keys below a child keep to the child's interval. -/
theorem Inv.kid_keys (o : WeakOrderOn P Value.lt Value.eq) (hi : Inv P t leaves uppers)
    {s : Slot} (hs : s ∈ leaves ++ uppers.flatten)
    (hin : (t.pool.cell s.id).isLeaf = false) {i : Nat} (hi' : i ≤ (t.pool.cell s.id).numKeys) :
    ∃ c, (t.pool.cell s.id).children i = some c ∧
      ∀ q, Under t.pool c q → ∀ j, j < (t.pool.cell q).numKeys →
        AtLeast (kidSlot (t.pool.cell s.id) s.lo s.hi i).lo ((t.pool.cell q).keys j) ∧
        Below (kidSlot (t.pool.cell s.id) s.lo s.hi i).hi ((t.pool.cell q).keys j) := by
  obtain ⟨hok, hkids⟩ := hi.upper_of_inner hs hin
  refine ⟨_, hok.node.kid i hi', fun q hu j hj => ?_⟩
  obtain ⟨c, hc, rfl, hin⟩ := hi.under o hu (hkids _ (mem_slotsOf.mpr ⟨i, hi', rfl⟩)) rfl
  obtain ⟨hkeys, hbounds⟩ := hi.slot_keys o hc
  exact hin _ (hkeys.typed j hj) (hbounds j hj).1 (hbounds j hj).2

end Nodes

/-! ## The leaves -/

section Leaves

variable {P : Value → Prop} {h : Heap Node}

theorem concat_cons (g : NodeId → Option (List NodeId)) (p : NodeId)
    (l : List (Option NodeId)) :
    concat g (some p :: l) = (g p).bind fun a => (concat g l).map (a ++ ·) := rfl

theorem concat_append (g : NodeId → Option (List NodeId)) (a b : List (Option NodeId)) :
    concat g (a ++ b) = (concat g a).bind fun x => (concat g b).map (x ++ ·) := by
  induction a with
  | nil => simp [concat]
  | cons p a ih =>
      cases p with
      | none => rfl
      | some p =>
          rw [List.cons_append, concat_cons, concat_cons, ih]
          cases g p with
          | none => rfl
          | some x =>
              cases concat g a with
              | none => rfl
              | some y => cases concat g b <;> simp [List.append_assoc]

theorem leavesOf_leaf {p : NodeId} (hp : (h.cell p).isLeaf = true) (fuel : Nat) :
    leavesOf h (fuel + 1) p = some [p] := by
  rw [leavesOf, if_pos hp]

theorem leavesOf_inner {s : Slot} (hn : InnerNode P (h.cell s.id) s.lo s.hi) (fuel : Nat) :
    leavesOf h (fuel + 1) s.id
      = concat (leavesOf h fuel) ((ids (kidSlots h s)).map some) := by
  rw [leavesOf, if_neg (by simp [hn.inner]), kidSlots, slotsOf, ids, firstN_map, firstN_map]
  congr 1
  exact firstN_congr fun i hi => hn.kid i (by omega)

/-- The walks from a level collect what the walks from the level below do. -/
theorem concat_level (fuel : Nat) (u : List Slot) (hin : ∀ s ∈ u, InnerOK P h s) :
    concat (leavesOf h (fuel + 1)) ((ids u).map some)
      = concat (leavesOf h fuel) ((ids (u.flatMap (kidSlots h))).map some) := by
  induction u with
  | nil => rfl
  | cons s u ih =>
      rw [List.flatMap_cons, ids_append, List.map_append, concat_append, ids_cons,
        List.map_cons, concat_cons, leavesOf_inner (hin s (by simp)).node,
        ih fun c hc => hin c (by simp [hc])]

theorem Tower.leavesOf_root {r : NodeId} : ∀ {us : List (List Slot)} {l : List Slot},
    Tower P h r l us → ∀ fuel, leavesOf h (us.length + fuel) r
      = concat (leavesOf h fuel) ((ids l).map some) := by
  intro us
  induction us with
  | nil =>
      intro l ht fuel
      obtain ⟨rfl, _⟩ := ht
      rw [List.length_nil, Nat.zero_add, ids_cons, List.map_cons, concat_cons]
      cases leavesOf h fuel r <;> simp [ids, concat]
  | cons u us ih =>
      intro l ht fuel
      obtain ⟨rfl, hin, _, hup⟩ := ht
      rw [List.length_cons, Nat.add_assoc, Nat.add_comm 1 fuel, ih hup (fuel + 1),
        concat_level fuel u hin]

theorem concat_leaves {l : List Slot} (hl : ∀ s ∈ l, (h.cell s.id).isLeaf = true)
    (fuel : Nat) : concat (leavesOf h (fuel + 1)) ((ids l).map some) = some (ids l) := by
  induction l with
  | nil => rfl
  | cons s l ih =>
      rw [ids_cons, List.map_cons, concat_cons, leavesOf_leaf (hl s (by simp)),
        ih fun c hc => hl c (by simp [hc])]
      rfl

theorem Linked.chainFrom_head : ∀ {l : List NodeId} {a : Option NodeId} {fuel : Nat},
    Linked h a l → l.length ≤ fuel → chainFrom h fuel l.head? = some l := by
  intro l
  induction l with
  | nil => intro a fuel _ _; cases fuel <;> rfl
  | cons p l ih =>
      intro a fuel hl hf
      obtain ⟨f, rfl⟩ : ∃ f, fuel = f + 1 := ⟨fuel - 1, by simp at hf; omega⟩
      rw [List.head?_cons, chainFrom, hl.2.1, ih hl.2.2 (by simpa using hf)]
      rfl

/-- The neighbours of the `i`-th leaf. -/
theorem Linked.neighbours : ∀ {l : List NodeId} {a : Option NodeId}, Linked h a l →
    ∀ (i : Nat) (q : NodeId), l[i]? = some q →
      (h.cell q).prev = (match i with
        | 0 => a
        | i + 1 => l[i]?) ∧ (h.cell q).next = l[i + 1]? := by
  intro l
  induction l with
  | nil => intro a _ i q hq; exact absurd hq (by simp)
  | cons b l ih =>
      intro a hl i q hq
      obtain ⟨hprev, hnext, hrest⟩ := hl
      cases i with
      | zero =>
          obtain rfl : b = q := by simpa using hq
          exact ⟨hprev, by rw [hnext, List.head?_eq_getElem?, List.getElem?_cons_succ]⟩
      | succ i =>
          rw [List.getElem?_cons_succ] at hq
          obtain ⟨h₁, h₂⟩ := ih hrest i q hq
          refine ⟨?_, by rw [h₂, List.getElem?_cons_succ]⟩
          cases i with
          | zero => exact h₁
          | succ i => exact h₁.trans List.getElem?_cons_succ.symm

/-- Along a chain, `prev` is the inverse of `next`. -/
theorem Linked.prev_iff {l : List NodeId} (hl : Linked h none l) (hnd : l.Nodup)
    {p q : NodeId} (hp : p ∈ l) (hq : q ∈ l) :
    (h.cell p).next = some q ↔ (h.cell q).prev = some p := by
  obtain ⟨i, hi⟩ := List.getElem?_of_mem hp
  obtain ⟨j, hj⟩ := List.getElem?_of_mem hq
  have hil : i < l.length := (List.getElem?_eq_some_iff.mp hi).1
  have hjl : j < l.length := (List.getElem?_eq_some_iff.mp hj).1
  rw [(hl.neighbours i p hi).2, (hl.neighbours j q hj).1, ← hj]
  cases j with
  | zero =>
      constructor
      · intro he
        exact absurd ((List.getElem?_inj hjl hnd).mp he.symm) (by omega)
      · intro he
        exact absurd he (by simp)
  | succ j =>
      rw [← hi]
      constructor
      · intro he
        have := (List.getElem?_inj hjl hnd).mp he.symm
        rw [show j = i by omega]
      · intro he
        have := (List.getElem?_inj hil hnd).mp he.symm
        rw [this]

end Leaves

/-! ## The invariant read node by node -/

theorem Inv.orderLinks {P : Value → Prop} (o : WeakOrderOn P Value.lt Value.eq)
    {t : BPTree} {leaves : List Slot} {uppers : List (List Slot)}
    (hi : Inv P t leaves uppers) : ∃ r, OrderLinks t r := by
  obtain ⟨r, hr, ht⟩ := hi.tower
  obtain ⟨hroot, hparent⟩ := ht.root_slot
  have hslot : ∀ p, Under t.pool r p → ∃ s ∈ leaves ++ uppers.flatten, s.id = p := by
    intro p hp
    obtain ⟨s, hs, hsp, _⟩ := hi.under o hp hroot rfl
    exact ⟨s, hs, hsp⟩
  have hlevels := ht.levels_le hi.nodup hi.ids_lt
  obtain ⟨f, hf⟩ : ∃ f, t.pool.size = uppers.length + (f + 1) :=
    ⟨t.pool.size - uppers.length - 1, by omega⟩
  have hnd := (List.nodup_append'.mp (ids_append .. ▸ hi.nodup)).1
  refine ⟨r, hr, ?_, ?_, ?_, ⟨ids leaves, ?_, ?_, ?_, ?_⟩, ?_, hparent⟩
  · intro p hp i j hij hj
    obtain ⟨s, hs, rfl⟩ := hslot p hp
    exact (hi.slot_keys o hs).1.sorted i j hij hj
  · intro p hp hin i hlt
    obtain ⟨s, hs, rfl⟩ := hslot p hp
    obtain ⟨c, hc, hkeys⟩ := hi.kid_keys o hs hin (Nat.le_of_lt hlt)
    refine ⟨c, hc, fun q hq j hj => (hkeys q hq j hj).2 _ ?_⟩
    rw [kidSlot, if_neg (Nat.ne_of_lt hlt)]
  · intro p hp hin i hlt
    obtain ⟨s, hs, rfl⟩ := hslot p hp
    obtain ⟨c, hc, hkeys⟩ := hi.kid_keys o hs hin (Nat.succ_le_of_lt hlt)
    refine ⟨c, hc, fun q hq j hj => ?_⟩
    rw [Value.ge, (hkeys q hq j hj).1 ((t.pool.cell s.id).keys i) rfl]
    rfl
  · rw [hf, ht.leavesOf_root (f + 1), concat_leaves fun s hs => (hi.leaf s hs).node.leaf]
  · rw [hi.leftmost]
    exact hi.linked.chainFrom_head (by simpa [ids] using hi.leaves_le)
  · exact fun p hp q hq => hi.linked.prev_iff hnd hp hq
  · intro p hp
    rw [List.head?_eq_getElem?] at hp
    exact (hi.linked.neighbours 0 p hp).1
  · intro p hp hin i hle c hc
    obtain ⟨s, hs, rfl⟩ := hslot p hp
    obtain ⟨hok, _⟩ := hi.upper_of_inner hs hin
    have hid : childId (t.pool.cell s.id) i = c := by rw [childId, hc]; rfl
    rw [← hid]
    exact hok.parent _ (mem_slotsOf.mpr ⟨i, hle, rfl⟩)

/-- The bit pattern of a quiet NaN. -/
def quietNaN : Value := .decimal 0x7FF8000000000000

end FlexQL.Proofs
