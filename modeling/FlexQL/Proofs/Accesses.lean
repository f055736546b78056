import FlexQL.Proofs.BPTreeTotal
import FlexQL.Spec.Accesses

/-!
# An insertion stays inside the arrays

A part of the insertion that returns with checked arrays returns the same with
arrays that are only watched, and every index was inside. What is left is the
search for a node among the children of its parent: no check would notice if
it ended without it. It does not, because a node is a child of the node it
names as its parent, in every tree of the climb.
-/

namespace FlexQL.Proofs

open Lib FlexQL.Ref FlexQL.Spec Traced

/-! ## The loops inside a node -/

section Loops

variable {n : Node} {i : Nat} {k : Value}

/-- A checked access that goes through was inside. -/
theorem checked_gives {α : Type} {e : Access} {c : Prop} [Decidable c] {v a : α}
    (hc : c → e.Sound) (h : (if c then .ok v else .error .undefined : Outcome α) = .ok a) :
    Gives Access.Sound (record e >>= fun _ => pure v) a := by
  split at h
  · next hinside =>
      obtain rfl := Except.ok.inj h
      exact (Gives.record (hc hinside)).bind (.pure _)
  · exact absurd h nofun

theorem key_gives {v : Value} (h : n.key i = .ok v) : Gives Access.Sound (Trace.key n i) v :=
  checked_gives (fun hi : i < bptreeOrder => hi) h

theorem rowId_gives {r : Nat} (h : n.rowId i = .ok r) : Gives Access.Sound (Trace.rowId n i) r :=
  checked_gives (fun hi : i < bptreeOrder => hi) h

theorem child_gives {c : Option NodeId} (h : n.child i = .ok c) :
    Gives Access.Sound (Trace.child n i) c :=
  checked_gives Nat.le_of_lt_succ h

theorem setKey_gives {v : Value} {n' : Node} (h : n.setKey i v = .ok n') :
    Gives Access.Sound (Trace.setKey n i v) n' :=
  checked_gives (fun hi : i < bptreeOrder => hi) h

theorem setRowId_gives {r : Nat} {n' : Node} (h : n.setRowId i r = .ok n') :
    Gives Access.Sound (Trace.setRowId n i r) n' :=
  checked_gives (fun hi : i < bptreeOrder => hi) h

theorem setChild_gives {c : Option NodeId} {n' : Node} (h : n.setChild i c = .ok n') :
    Gives Access.Sound (Trace.setChild n i c) n' :=
  checked_gives Nat.le_of_lt_succ h

theorem lowerBoundLoop_gives {pos : Nat} (lo hi : Nat)
    (h : BPTree.lowerBoundLoop n k lo hi = .ok pos) :
    Gives Access.Sound (Trace.lowerBoundLoop n k lo hi) pos := by
  fun_induction Trace.lowerBoundLoop n k lo hi with
  | case1 lo hi hlt mid ih₁ ih₂ =>
      rw [BPTree.lowerBoundLoop, dif_pos hlt] at h
      obtain ⟨v, hv, h⟩ := Outcome.bind_eq_ok.mp h
      refine (key_gives hv).bind ?_
      split at h
      · next hbelow =>
          rw [if_pos hbelow]
          exact ih₁ h
      · next hbelow =>
          rw [if_neg hbelow]
          exact ih₂ h
  | case2 lo hi hge =>
      rw [BPTree.lowerBoundLoop, dif_neg hge] at h
      obtain rfl := Except.ok.inj h
      exact .pure _

theorem lowerBound_gives {pos : Nat} (h : BPTree.lowerBound n k = .ok pos) :
    Gives Access.Sound (Trace.lowerBound n k) pos :=
  lowerBoundLoop_gives 0 n.numKeys h

theorem findLeafLoop_gives {heap : Heap Node} {found : Option NodeId} (fuel : Nat)
    (p : Option NodeId) (h : BPTree.findLeafLoop heap k fuel p = .ok found) :
    Gives Access.Sound (Trace.findLeafLoop heap k fuel p) found := by
  induction fuel generalizing p with
  | zero =>
      cases p with
      | none =>
          obtain rfl := Except.ok.inj h
          exact .pure _
      | some p => exact absurd h nofun
  | succ fuel ih =>
      cases p with
      | none =>
          obtain rfl := Except.ok.inj h
          exact .pure _
      | some p =>
          have hgo : ∀ {cur : Node} {i : Nat},
              (cur.child i >>= BPTree.findLeafLoop heap k fuel) = .ok found →
              Gives Access.Sound (Trace.child cur i >>= Trace.findLeafLoop heap k fuel) found := by
            intro cur i hchild
            obtain ⟨c, hc, hrest⟩ := Outcome.bind_eq_ok.mp hchild
            exact (child_gives hc).bind (ih c hrest)
          rw [BPTree.findLeafLoop] at h
          rw [Trace.findLeafLoop]
          obtain ⟨cur, hcur, h⟩ := Outcome.bind_eq_ok.mp h
          refine (Gives.call hcur).bind ?_
          split at h
          · next hleaf =>
              obtain rfl := Except.ok.inj h
              rw [if_pos hleaf]
              exact .pure _
          · next hleaf =>
              rw [if_neg hleaf]
              obtain ⟨idx, hidx, h⟩ := Outcome.bind_eq_ok.mp h
              refine (lowerBound_gives hidx).bind ?_
              split at h
              · next hlast =>
                  rw [if_pos hlast]
                  exact hgo h
              · next hlast =>
                  rw [if_neg hlast]
                  obtain ⟨v, hv, h⟩ := Outcome.bind_eq_ok.mp h
                  refine (key_gives hv).bind ?_
                  split at h
                  · next htie =>
                      rw [if_pos htie]
                      exact hgo h
                  · next htie =>
                      rw [if_neg htie]
                      exact hgo h

theorem keyIs_gives {b : Bool} (h : BPTree.keyIs n i k = .ok b) :
    Gives Access.Sound (Trace.keyIs n i k) b := by
  rw [BPTree.keyIs] at h
  rw [Trace.keyIs]
  split at h
  · next hlt =>
      rw [if_pos hlt]
      obtain ⟨v, hv, h⟩ := Outcome.bind_eq_ok.mp h
      obtain rfl := Except.ok.inj h
      exact (key_gives hv).bind (.pure _)
  · next hge =>
      rw [if_neg hge]
      obtain rfl := Except.ok.inj h
      exact .pure _

theorem shiftEntries_gives {pos : Nat} (i : Nat) {n n' : Node}
    (h : BPTree.shiftEntries pos i n = .ok n') :
    Gives Access.Sound (Trace.shiftEntries pos i n) n' := by
  induction i generalizing n with
  | zero =>
      obtain rfl := Except.ok.inj h
      exact .pure _
  | succ i ih =>
      rw [BPTree.shiftEntries] at h
      rw [Trace.shiftEntries]
      split at h
      · next hlt =>
          rw [if_pos hlt]
          obtain ⟨v, hv, h⟩ := Outcome.bind_eq_ok.mp h
          obtain ⟨n₁, hn₁, h⟩ := Outcome.bind_eq_ok.mp h
          obtain ⟨r, hr, h⟩ := Outcome.bind_eq_ok.mp h
          obtain ⟨n₂, hn₂, h⟩ := Outcome.bind_eq_ok.mp h
          exact (key_gives hv).bind <| (setKey_gives hn₁).bind <| (rowId_gives hr).bind <|
            (setRowId_gives hn₂).bind (ih h)
      · next hge =>
          rw [if_neg hge]
          obtain rfl := Except.ok.inj h
          exact .pure _

theorem shiftChildren_gives {pos : Nat} (i : Nat) {n n' : Node}
    (h : BPTree.shiftChildren pos i n = .ok n') :
    Gives Access.Sound (Trace.shiftChildren pos i n) n' := by
  induction i generalizing n with
  | zero =>
      obtain rfl := Except.ok.inj h
      exact .pure _
  | succ i ih =>
      rw [BPTree.shiftChildren] at h
      rw [Trace.shiftChildren]
      split at h
      · next hlt =>
          rw [if_pos hlt]
          obtain ⟨v, hv, h⟩ := Outcome.bind_eq_ok.mp h
          obtain ⟨n₁, hn₁, h⟩ := Outcome.bind_eq_ok.mp h
          obtain ⟨c, hc, h⟩ := Outcome.bind_eq_ok.mp h
          obtain ⟨n₂, hn₂, h⟩ := Outcome.bind_eq_ok.mp h
          exact (key_gives hv).bind <| (setKey_gives hn₁).bind <| (child_gives hc).bind <|
            (setChild_gives hn₂).bind (ih h)
      · next hge =>
          rw [if_neg hge]
          obtain rfl := Except.ok.inj h
          exact .pure _

theorem moveEntries_gives {src : Node} {mid : Nat} (count : Nat) {i : Nat} {dst dst' : Node}
    (h : BPTree.moveEntries src mid count i dst = .ok dst') :
    Gives Access.Sound (Trace.moveEntries src mid count i dst) dst' := by
  induction count generalizing i dst with
  | zero =>
      obtain rfl := Except.ok.inj h
      exact .pure _
  | succ count ih =>
      obtain ⟨v, hv, h⟩ := Outcome.bind_eq_ok.mp h
      obtain ⟨n₁, hn₁, h⟩ := Outcome.bind_eq_ok.mp h
      obtain ⟨r, hr, h⟩ := Outcome.bind_eq_ok.mp h
      obtain ⟨n₂, hn₂, h⟩ := Outcome.bind_eq_ok.mp h
      exact (key_gives hv).bind <| (setKey_gives hn₁).bind <| (rowId_gives hr).bind <|
        (setRowId_gives hn₂).bind (ih h)

theorem moveKeys_gives {src : Node} {mid : Nat} (count : Nat) {i : Nat} {dst dst' : Node}
    (h : BPTree.moveKeys src mid count i dst = .ok dst') :
    Gives Access.Sound (Trace.moveKeys src mid count i dst) dst' := by
  induction count generalizing i dst with
  | zero =>
      obtain rfl := Except.ok.inj h
      exact .pure _
  | succ count ih =>
      obtain ⟨v, hv, h⟩ := Outcome.bind_eq_ok.mp h
      obtain ⟨n₁, hn₁, h⟩ := Outcome.bind_eq_ok.mp h
      exact (key_gives hv).bind <| (setKey_gives hn₁).bind (ih h)

theorem moveChildren_gives {src : Node} {mid : Nat} {self : NodeId} (count : Nat) {i : Nat}
    {heap : Heap Node} {dst : Node} {moved : Heap Node × Node}
    (h : BPTree.moveChildren src mid self count i heap dst = .ok moved) :
    Gives Access.Sound (Trace.moveChildren src mid self count i heap dst) moved := by
  induction count generalizing i heap dst with
  | zero =>
      obtain rfl := Except.ok.inj h
      exact .pure _
  | succ count ih =>
      obtain ⟨c, hc, h⟩ := Outcome.bind_eq_ok.mp h
      obtain ⟨n₁, hn₁, h⟩ := Outcome.bind_eq_ok.mp h
      refine (child_gives hc).bind <| (setChild_gives hn₁).bind ?_
      cases c with
      | none => exact ih h
      | some p =>
          obtain ⟨n, hn, h⟩ := Outcome.bind_eq_ok.mp h
          exact (Gives.call hn).bind (ih h)

theorem childPos_gives {parent : Node} {left : NodeId} {pos : Nat} (count : Nat) {i : Nat}
    (h : BPTree.childPos parent left count i = .ok pos) :
    Gives Access.Sound (Trace.childPos parent left count i) pos := by
  induction count generalizing i with
  | zero =>
      obtain rfl := Except.ok.inj h
      exact .pure _
  | succ count ih =>
      obtain ⟨c, hc, h⟩ := Outcome.bind_eq_ok.mp h
      refine (child_gives hc).bind ?_
      split at h
      · next hleft =>
          rw [if_pos hleft]
          obtain rfl := Except.ok.inj h
          exact .pure _
      · next hleft =>
          rw [if_neg hleft]
          exact ih h

end Loops

/-! ## The climb -/

section Climb

variable {t t' : BPTree} {x y p : NodeId} {key : Value} {pos : Nat}

theorem insertIntoParent_root_gives (fuel : Nat) (hroot : t.root = some x)
    (h : BPTree.insertIntoParent (fuel + 1) t x key y = .ok t') :
    Gives Access.Sound (Trace.insertIntoParent (fuel + 1) t x key y) t' := by
  rw [BPTree.insertIntoParent, if_pos hroot] at h
  rw [Trace.insertIntoParent, if_pos hroot]
  obtain ⟨n₁, hn₁, h⟩ := Outcome.bind_eq_ok.mp h
  obtain ⟨n₂, hn₂, h⟩ := Outcome.bind_eq_ok.mp h
  obtain ⟨n₃, hn₃, h⟩ := Outcome.bind_eq_ok.mp h
  obtain ⟨l, hl, h⟩ := Outcome.bind_eq_ok.mp h
  obtain ⟨r, hr, h⟩ := Outcome.bind_eq_ok.mp h
  obtain rfl := Except.ok.inj h
  exact (setKey_gives hn₁).bind <| (setChild_gives hn₂).bind <| (setChild_gives hn₃).bind <|
    (Gives.call hl).bind <| (Gives.call hr).bind (.pure _)

theorem insertIntoParent_inner_gives (fuel : Nat) (hroot : t.root ≠ some x)
    (hx : x < t.pool.size) (hy : y < t.pool.size) (hp : p < t.pool.size) (hpy : p ≠ y)
    (hpar : (t.pool.cell x).parent = some p) (hcap : (t.pool.cell p).numKeys < bptreeOrder)
    (hpos : pos ≤ (t.pool.cell p).numKeys) (hchild : (t.pool.cell p).children pos = some x)
    (hfirst : ∀ i, i < pos → (t.pool.cell p).children i ≠ some x)
    (hrest : Gives Access.Sound
      (if bptreeOrder ≤ (t.pool.cell p).numKeys + 1 then
        Trace.splitInternal fuel { t with pool := growHeap t.pool p pos key y } p
      else pure { t with pool := growHeap t.pool p pos key y }) t') :
    Gives Access.Sound (Trace.insertIntoParent (fuel + 1) t x key y) t' := by
  have hderef : deref (t.pool.put y { t.pool.cell y with parent := some p }) (some p) =
      .ok (t.pool.cell p) := by
    rw [deref, Heap.get_of_lt (by exact hp), Heap.put_cell_ne _ _ hpy]
  have hsearch := childPos_spec hchild hfirst (by omega) ((t.pool.cell p).numKeys + 1) 0
    (Nat.zero_le _) (by omega)
  rw [Trace.insertIntoParent, if_neg hroot]
  refine (Gives.call (Heap.get_of_lt hx)).bind <| (Gives.call (Heap.get_of_lt hy)).bind ?_
  rw [hpar]
  refine (Gives.call hderef).bind <| (childPos_gives _ hsearch).bind <|
    (Gives.record ⟨hpos, hchild⟩).bind <|
    (shiftChildren_gives _ (shiftChildren_spec pos _ _ hcap hpos)).bind <|
    (setKey_gives (Node.setKey_of_lt (by omega))).bind <|
    (setChild_gives (Node.setChild_of_le (by omega))).bind ?_
  rw [growHeap, ← grown_eq] at hrest
  exact hrest

theorem splitInternal_gives (fuel : Nat) (hp : p < t.pool.size)
    (hfull : (t.pool.cell p).numKeys = bptreeOrder)
    (hkids : ∀ i, i ≤ (t.pool.cell p).numKeys →
      (t.pool.cell p).children i = some (childId (t.pool.cell p) i) ∧
        childId (t.pool.cell p) i < t.pool.size)
    (hrest : Gives Access.Sound
      (Trace.insertIntoParent fuel { t with pool := splitHeap t.pool p } p
        ((t.pool.cell p).keys ((t.pool.cell p).numKeys / 2)) t.pool.size) t') :
    Gives Access.Sound (Trace.splitInternal (fuel + 1) t p) t' := by
  have hord : bptreeOrder = 256 := rfl
  have hp' : p < (t.pool.alloc (Node.new false)).1.size := Nat.lt_succ_of_lt hp
  have hget := Heap.get_of_lt hp'
  rw [Heap.alloc_cell_lt _ _ hp] at hget
  have hkeys := moveKeys_spec (t.pool.cell p) ((t.pool.cell p).numKeys / 2)
    ((t.pool.cell p).numKeys - (t.pool.cell p).numKeys / 2 - 1) 0
    { Node.new false with
      numKeys := (t.pool.cell p).numKeys - (t.pool.cell p).numKeys / 2 - 1 } (by omega)
  rw [Trace.splitInternal]
  refine (Gives.call hget).bind <| (key_gives (Node.key_of_lt (by omega))).bind <|
    (moveKeys_gives _ hkeys).bind <| (moveChildren_gives _ (moveChildren_spec _ _ _ _ _ _ _
      (by omega) ?_)).bind <| (Gives.call (Heap.get_of_lt ?_)).bind ?_
  · intro j hj
    obtain ⟨h₁, h₂⟩ := hkids ((t.pool.cell p).numKeys / 2 + 1 + 0 + j) (by omega)
    exact ⟨h₁, Nat.lt_succ_of_lt h₂⟩
  · rw [reparent_size]
    exact hp'
  · simp only [Nat.add_zero, Nat.zero_le, true_and, Nat.zero_add]
    exact hrest

/-- Every search of the climb ends at the node it is for. -/
theorem Shape.insertIntoParent_gives : ∀ (fuel : Nat) {t t' : BPTree} {r x y : NodeId}
    {ht : NodeId → Nat} {key : Value}, t.root = some r → Shape t.pool r ht (some y) none →
    x < t.pool.size → ht y = ht x → (x ≠ r → y ≠ x) →
    BPTree.insertIntoParent fuel t x key y = .ok t' →
    Gives Access.Sound (Trace.insertIntoParent fuel t x key y) t' := by
  intro fuel
  induction fuel using Nat.strong_induction_on with
  | _ fuel ih =>
      intro t t' r x y ht key hroot hs hx hyx hne h
      obtain ⟨hylt, -, -⟩ := hs.alone y rfl
      cases fuel with
      | zero => exact absurd h nofun
      | succ fuel =>
          by_cases hxr : x = r
          · exact insertIntoParent_root_gives fuel (hxr ▸ hroot) h
          · obtain ⟨p, pos, hp, hpar, h0, hht, hpy, hpos, hchild, hfirst⟩ :=
              hs.slot hx hyx hxr (hne hxr)
            have hcap := hs.cap p hp (by simp)
            have hroot' : t.root ≠ some x :=
              fun he => hxr (Option.some.inj (he.symm.trans hroot))
            rw [insertIntoParent_inner fuel hroot' hx hylt hp hpy hpar hcap hpos hchild
              hfirst] at h
            refine insertIntoParent_inner_gives fuel hroot' hx hylt hp hpy hpar hcap hpos hchild
              hfirst ?_
            split at h
            · next hfull =>
                rw [if_pos hfull]
                have hg : Shape (growHeap t.pool p pos key y) r ht none (some p) :=
                  hs.grow hp (by omega) hpos
                have hfull' : ((growHeap t.pool p pos key y).cell p).numKeys = bptreeOrder := by
                  rw [growHeap_self]
                  exact Nat.le_antisymm hcap hfull
                have hkids := fun i hi => hg.kidId hp h0 (i := i) hi
                cases fuel with
                | zero => exact absurd h nofun
                | succ fuel =>
                    rw [splitInternal_spec
                      (t := { t with pool := growHeap t.pool p pos key y }) fuel hp hfull'
                      hkids] at h
                    refine splitInternal_gives fuel hp hfull' hkids ?_
                    have hold : ∀ q, q < t.pool.size →
                        (if q = t.pool.size then ht p else ht q) = ht q :=
                      fun q hq => if_neg (Nat.ne_of_lt hq)
                    exact ih fuel (by omega) hroot (hg.cutInner hp h0 hfull' hold (if_pos rfl))
                      (Nat.lt_succ_of_lt hp) ((if_pos rfl).trans (hold p hp).symm)
                      (fun _ => Nat.ne_of_gt hp) h
            · next hroom =>
                rw [if_neg hroom]
                obtain rfl := Except.ok.inj h
                exact .pure _

end Climb

/-! ## The insertion -/

section Insert

variable {t t' : BPTree} {r p : NodeId} {ht : NodeId → Nat} {key : Value} {pos rowId : Nat}

theorem splitLeaf_gives (hp : p < t.pool.size) (hfull : (t.pool.cell p).numKeys = bptreeOrder)
    (hnext : ∀ r, (t.pool.cell p).next = some r → r < t.pool.size)
    (hrest : Gives Access.Sound (Trace.insertIntoParent (2 * (t.pool.size + 1))
      { t with pool := leafHeap t.pool p } p
      ((t.pool.cell p).keys ((t.pool.cell p).numKeys / 2)) t.pool.size) t') :
    Gives Access.Sound (Trace.splitLeaf t p) t' := by
  have hord : bptreeOrder = 256 := rfl
  have hp' : p < t.pool.size + 1 := Nat.lt_succ_of_lt hp
  have hget := Heap.get_of_lt (h := (t.pool.alloc (Node.new true)).1) hp'
  rw [Heap.alloc_cell_lt _ _ hp] at hget
  have hrelink := relinkNext_spec (h := (t.pool.alloc (upperLeaf (t.pool.cell p) p)).1)
    t.pool.size fun r hr => Nat.lt_succ_of_lt (hnext r hr)
  rw [← alloc_put_self t.pool (Node.new true)] at hrelink
  have hfirst := upperLeaf_first (n := t.pool.cell p) (p := p) (by omega)
  rw [Trace.splitLeaf]
  refine (Gives.call hget).bind <| (moveEntries_gives _ (moveEntries_upper hfull.le)).bind <|
    (Gives.call hrelink).bind <| (Gives.call (Heap.get_of_lt ?_)).bind <|
    (key_gives hfirst).bind ?_
  · rw [relink_size]
    exact hp'
  · simp only [alloc_put_self, Heap.put_size, relink_size, Heap.alloc_size]
    exact hrest

theorem Shape.splitLeaf_gives (hroot : t.root = some r)
    (hs : Shape t.pool r ht none (some p)) (hp : p < t.pool.size) (h0 : ht p = 0)
    (hfull : (t.pool.cell p).numKeys = bptreeOrder) (h : t.splitLeaf p = .ok t') :
    Gives Access.Sound (Trace.splitLeaf t p) t' := by
  have hnext := fun q hq => (hs.next p hp q hq).1
  have hold : ∀ q, q < t.pool.size → (if q = t.pool.size then 0 else ht q) = ht q :=
    fun q hq => if_neg (Nat.ne_of_lt hq)
  rw [splitLeaf_spec hp hfull hnext] at h
  refine Proofs.splitLeaf_gives hp hfull hnext (Shape.insertIntoParent_gives _
    (t := { t with pool := leafHeap t.pool p }) hroot
    (hs.cutLeaf hp h0 hfull hold (if_pos rfl)) ?_ ?_ (fun _ => Nat.ne_of_gt hp) h)
  · rw [leafHeap_size]
    exact Nat.lt_succ_of_lt hp
  · rw [if_pos rfl, hold p hp, h0]

theorem Shape.insert_gives (hroot : t.root = some r) (hs : Shape t.pool r ht none none)
    {b : Bool} (h : t.insert key rowId = .ok (t', b)) :
    Gives Access.Sound (Trace.insert t key rowId) (t', b) := by
  obtain ⟨p, hleaf, hp, h0⟩ : ∃ p, t.findLeaf key = .ok (some p) ∧ p < t.pool.size ∧ ht p = 0 := by
    rw [BPTree.findLeaf, hroot]
    exact hs.findLeafLoop _ r hs.root hs.tall
  have hcap := hs.cap p hp (by simp)
  obtain ⟨pos, hpos, hle⟩ := lowerBound_le (Nat.le_of_lt hcap) key
  have hkey := @keyIs_spec (t.pool.cell p) key (Nat.le_of_lt hcap) pos
  refine (findLeafLoop_gives _ _ hleaf).bind <| (Gives.call (Heap.get_of_lt hp)).bind <|
    (lowerBound_gives hpos).bind <| (keyIs_gives hkey).bind ?_
  by_cases htie : pos < (t.pool.cell p).numKeys ∧ ((t.pool.cell p).keys pos).eq key = true
  · rw [insert_tie hleaf hp hcap hpos htie.1 htie.2 rowId] at h
    obtain ⟨rfl, rfl⟩ := Prod.mk.inj (Except.ok.inj h)
    rw [if_pos (by simpa using htie)]
    exact (setRowId_gives (Node.setRowId_of_lt (by omega))).bind (.pure _)
  · have hne : pos < (t.pool.cell p).numKeys → ((t.pool.cell p).keys pos).eq key = false :=
      fun hlt => by simpa using fun he => htie ⟨hlt, he⟩
    rw [insert_new hleaf hp hcap hpos hle hne rowId] at h
    rw [if_neg (by simpa using hne)]
    refine (shiftEntries_gives _ (shiftEntries_spec pos _ _ hcap hle)).bind <|
      (setKey_gives (Node.setKey_of_lt (by omega))).bind <|
      (setRowId_gives (Node.setRowId_of_lt (by omega))).bind ?_
    simp only [filled_eq]
    dsimp only at h
    split at h
    · next hfull =>
        obtain ⟨t₁, hsplit, hok⟩ := Outcome.bind_eq_ok.mp h
        obtain ⟨rfl, rfl⟩ := Prod.mk.inj (Except.ok.inj hok)
        rw [if_pos hfull]
        have hput : Shape (t.pool.put p (filled (t.pool.cell p) pos key rowId)) r ht none
            (some p) := hs.put hp h0 rfl rfl rfl
        have hnum : ((t.pool.put p (filled (t.pool.cell p) pos key rowId)).cell p).numKeys =
            bptreeOrder := by
          rw [Heap.put_cell_self]
          exact Nat.le_antisymm hcap hfull
        exact (Shape.splitLeaf_gives (t := { t with
          pool := t.pool.put p (filled (t.pool.cell p) pos key rowId), size := t.size + 1 })
          hroot hput hp h0 hnum hsplit).bind (.pure _)
    · next hroom =>
        obtain ⟨rfl, rfl⟩ := Prod.mk.inj (Except.ok.inj h)
        rw [if_neg hroom]
        exact .pure _

end Insert

/-- Whatever has been inserted before, into the tree of any type: the next
insertion returns, with and without checks, and every index it uses on the way
is inside its array; wherever it searches a node for a child, it finds it. -/
theorem insert_accesses_sound (ty : DataType) (ops : List (Value × Nat)) (key : Value)
    (rowId : Nat) : ∃ t t', (BPTree.new ty).insertAll ops = .ok t ∧
      t.insert key rowId = .ok (t', true) ∧
      (Trace.insert t key rowId).result = .ok (t', true) ∧
      ∀ access ∈ (Trace.insert t key rowId).events, access.Sound := by
  obtain ⟨t, r, ht, l, hrun, hscan⟩ := insertAll_scannable ty ops
  obtain ⟨t', -, -, -, hins, -⟩ := hscan.insert key rowId
  have hgives := hscan.shape.insert_gives hscan.root hins
  exact ⟨t, t', hrun, hins, hgives.result, hgives.events⟩

end FlexQL.Proofs
