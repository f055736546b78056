import FlexQL.Ref.BPTree
import FlexQL.Spec.KeyOrder

/-!
# Inside one node

What the loops over the arrays of a node compute, given that the keys in use
are ascending and fit their array: the binary search finds the insertion
point, the shifting loops open a gap there, the moving loops copy the upper
half, and the search for a child finds it. Each is an equation that says the
loop returns, so that no index it used was out of bounds.
-/

namespace FlexQL.Proofs

open Lib FlexQL.Ref FlexQL.Spec

/-- The keys in use are pairwise ascending and satisfy `P`. -/
structure Keys (P : Value → Prop) (n : Node) : Prop where
  sorted : ∀ i j, i < j → j < n.numKeys → (n.keys i).lt (n.keys j) = true
  typed : ∀ i, i < n.numKeys → P (n.keys i)

/-- A key put in where it belongs keeps the keys of a node in order. -/
theorem Keys.opened {P : Value → Prop} {n m : Node} {pos : Nat} {key : Value}
    (hn : Keys P n) (hk : P key) (hpos : pos ≤ n.numKeys)
    (hl : ∀ i, i < pos → (n.keys i).lt key = true)
    (hr : ∀ i, pos ≤ i → i < n.numKeys → key.lt (n.keys i) = true)
    (hm : m.numKeys = n.numKeys + 1) (hkeys : m.keys = openAt n.keys pos n.numKeys key) :
    Keys P m := by
  refine ⟨?_, by rw [hm, hkeys]; exact forall_openAt hpos hn.typed hk⟩
  intro i j hij hj
  rw [hm] at hj
  rw [hkeys]
  rcases openAt_cases n.keys pos key (show i < n.numKeys + 1 by omega) with
      ⟨h, e⟩ | ⟨h, e⟩ | ⟨h, e⟩ <;>
    rcases openAt_cases n.keys pos key hj with ⟨h', e'⟩ | ⟨h', e'⟩ | ⟨h', e'⟩ <;> rw [e, e']
  · exact hn.sorted _ _ hij (by omega)
  · exact hl _ h
  · exact hn.sorted _ _ (by omega) (by omega)
  · omega
  · omega
  · exact hr _ (by omega) (by omega)
  · omega
  · omega
  · exact hn.sorted _ _ (by omega) (by omega)

/-- `pos` splits the keys in use into those below `key` and the rest. -/
structure Splits (n : Node) (key : Value) (pos : Nat) : Prop where
  le : pos ≤ n.numKeys
  below : ∀ i, i < pos → (n.keys i).lt key = true
  above : ∀ i, pos ≤ i → i < n.numKeys → (n.keys i).lt key = false

theorem Node.key_of_lt {n : Node} {i : Nat} (h : i < bptreeOrder) :
    n.key i = .ok (n.keys i) := if_pos h

theorem Node.rowId_of_lt {n : Node} {i : Nat} (h : i < bptreeOrder) :
    n.rowId i = .ok (n.rowIds i) := if_pos h

theorem Node.child_of_le {n : Node} {i : Nat} (h : i ≤ bptreeOrder) :
    n.child i = .ok (n.children i) := if_pos (Nat.lt_succ_of_le h)

theorem Node.setKey_of_lt {n : Node} {i : Nat} {v : Value} (h : i < bptreeOrder) :
    n.setKey i v = .ok { n with keys := setAt n.keys i v } := if_pos h

theorem Node.setRowId_of_lt {n : Node} {i r : Nat} (h : i < bptreeOrder) :
    n.setRowId i r = .ok { n with rowIds := setAt n.rowIds i r } := if_pos h

theorem Node.setChild_of_le {n : Node} {i : Nat} {c : Option NodeId}
    (h : i ≤ bptreeOrder) :
    n.setChild i c = .ok { n with children := setAt n.children i c } :=
  if_pos (Nat.lt_succ_of_le h)

section Search

variable {P : Value → Prop} {n : Node} {key : Value}

theorem lowerBoundLoop_spec (o : WeakOrderOn P Value.lt Value.eq)
    (hn : Keys P n) (hk : P key) (hcap : n.numKeys ≤ bptreeOrder) :
    ∀ lo hi, lo ≤ hi → hi ≤ n.numKeys →
      (∀ i, i < lo → (n.keys i).lt key = true) →
      (∀ i, hi ≤ i → i < n.numKeys → (n.keys i).lt key = false) →
      ∃ pos, BPTree.lowerBoundLoop n key lo hi = .ok pos ∧ Splits n key pos := by
  intro lo hi
  induction hd : hi - lo using Nat.strong_induction_on generalizing lo hi with
  | _ d ih =>
      intro hle hhi hlo hup
      rw [BPTree.lowerBoundLoop]
      split
      · next hlt =>
          rw [Outcome.bind_of_ok (Node.key_of_lt (by omega))]
          split
          · next hmid =>
              -- everything up to the middle is below the key as well
              refine ih (hi - ((lo + hi) / 2 + 1)) (by omega) _ _ rfl (by omega)
                hhi ?_ hup
              intro i hi'
              rcases Nat.lt_or_ge i ((lo + hi) / 2) with h | h
              · exact o.trans (hn.typed _ (by omega)) (hn.typed _ (by omega)) hk
                  (hn.sorted _ _ h (by omega)) hmid
              · rwa [show i = (lo + hi) / 2 by omega]
          · next hmid =>
              refine ih ((lo + hi) / 2 - lo) (by omega) _ _ rfl (by omega)
                (by omega) hlo ?_
              intro i hi' hin
              rcases Nat.lt_or_ge ((lo + hi) / 2) i with h | h
              · cases hik : (n.keys i).lt key with
                | false => rfl
                | true =>
                    exact absurd (o.trans (hn.typed _ (by omega)) (hn.typed _ hin)
                      hk (hn.sorted _ _ h hin) hik) hmid
              · rw [show i = (lo + hi) / 2 by omega]
                simpa using hmid
      · next hlt =>
          exact ⟨lo, rfl, by omega, hlo, fun i h => hup i (by omega)⟩

/-- `lower_bound` returns the insertion point. -/
theorem lowerBound_spec (o : WeakOrderOn P Value.lt Value.eq) (hn : Keys P n)
    (hk : P key) (hcap : n.numKeys ≤ bptreeOrder) :
    ∃ pos, BPTree.lowerBound n key = .ok pos ∧ Splits n key pos :=
  lowerBoundLoop_spec o hn hk hcap 0 n.numKeys (Nat.zero_le _) (Nat.le_refl _)
    (fun i h => absurd h (Nat.not_lt_zero i)) (fun i h h' => absurd h (by omega))

/-- Behind the insertion point only its own key can be tied. -/
theorem Splits.lt_of_not_tie (o : WeakOrderOn P Value.lt Value.eq) (hn : Keys P n)
    (hk : P key) {pos : Nat} (h : Splits n key pos)
    (hne : pos < n.numKeys → (n.keys pos).eq key = false) :
    ∀ i, pos ≤ i → i < n.numKeys → key.lt (n.keys i) = true := by
  have hpos : pos < n.numKeys → key.lt (n.keys pos) = true := fun hp =>
    o.gt_of_not (hn.typed _ hp) hk (by simp [h.above pos (Nat.le_refl _) hp])
      (by simp [hne hp])
  intro i hi hin
  rcases Nat.eq_or_lt_of_le hi with rfl | hlt
  · exact hpos hin
  · exact o.trans hk (hn.typed _ (by omega)) (hn.typed _ hin) (hpos (by omega))
      (hn.sorted _ _ hlt hin)

theorem Splits.lt_of_tie (o : WeakOrderOn P Value.lt Value.eq) (hn : Keys P n)
    (hk : P key) {pos : Nat} (hp : pos < n.numKeys)
    (he : (n.keys pos).eq key = true) :
    ∀ i, pos < i → i < n.numKeys → key.lt (n.keys i) = true := by
  intro i hi hin
  rw [← o.lt_congr_left (hn.typed _ hp) hk (hn.typed _ hin) he]
  exact hn.sorted _ _ hi hin

theorem keyIs_spec (hcap : n.numKeys ≤ bptreeOrder) (pos : Nat) :
    BPTree.keyIs n pos key = .ok (decide (pos < n.numKeys) && (n.keys pos).eq key) := by
  rw [BPTree.keyIs]
  split
  · next h =>
      rw [Node.key_of_lt (by omega)]
      simp [h]
  · next h => simp [h]

end Search

section Loops

theorem shiftEntries_spec (pos : Nat) : ∀ (m : Nat) (n : Node), m < bptreeOrder →
    pos ≤ m → BPTree.shiftEntries pos m n = .ok
      { n with
        keys := fun i => if pos < i ∧ i ≤ m then n.keys (i - 1) else n.keys i
        rowIds := fun i => if pos < i ∧ i ≤ m then n.rowIds (i - 1) else n.rowIds i } := by
  intro m
  induction m with
  | zero =>
      intro n _ hpos
      rw [BPTree.shiftEntries]
      have : ∀ i, ¬ (pos < i ∧ i ≤ 0) := by omega
      simp only [this, if_false]
  | succ m ih =>
      intro n hm hpos
      rw [BPTree.shiftEntries]
      split
      · next hlt =>
          simp only [Node.key_of_lt (show m < bptreeOrder by omega),
            Node.rowId_of_lt (show m < bptreeOrder by omega), Node.setKey_of_lt hm,
            Node.setRowId_of_lt hm, Outcome.bind_ok]
          rw [ih _ (by omega) (by omega)]
          congr 1
          simp only [setAt, Node.mk.injEq, true_and, and_true]
          constructor <;> funext i <;> repeat' split
          all_goals first | rfl | omega | (congr 1; omega)
      · next hge =>
          have : ∀ i, ¬ (pos < i ∧ i ≤ m + 1) := by omega
          simp only [this, if_false]

theorem shiftChildren_spec (pos : Nat) : ∀ (m : Nat) (n : Node), m < bptreeOrder →
    pos ≤ m → BPTree.shiftChildren pos m n = .ok
      { n with
        keys := fun i => if pos < i ∧ i ≤ m then n.keys (i - 1) else n.keys i
        children := fun i =>
          if pos + 1 < i ∧ i ≤ m + 1 then n.children (i - 1) else n.children i } := by
  intro m
  induction m with
  | zero =>
      intro n _ hpos
      rw [BPTree.shiftChildren]
      have h₁ : ∀ i, ¬ (pos < i ∧ i ≤ 0) := by omega
      have h₂ : ∀ i, ¬ (pos + 1 < i ∧ i ≤ 0 + 1) := by omega
      simp only [h₁, h₂, if_false]
  | succ m ih =>
      intro n hm hpos
      rw [BPTree.shiftChildren]
      split
      · next hlt =>
          simp only [Node.key_of_lt (show m < bptreeOrder by omega), Node.setKey_of_lt hm,
            Node.child_of_le (show m + 1 ≤ bptreeOrder by omega),
            Node.setChild_of_le (show m + 2 ≤ bptreeOrder by omega), Outcome.bind_ok]
          rw [ih _ (by omega) (by omega)]
          congr 1
          simp only [setAt, Node.mk.injEq, true_and, and_true]
          constructor <;> funext i <;> repeat' split
          all_goals first | rfl | omega | (congr 1; omega)
      · next hge =>
          have h₁ : ∀ i, ¬ (pos < i ∧ i ≤ m + 1) := by omega
          have h₂ : ∀ i, ¬ (pos + 1 < i ∧ i ≤ m + 1 + 1) := by omega
          simp only [h₁, h₂, if_false]

theorem moveEntries_spec (src : Node) (mid : Nat) : ∀ (count i : Nat) (dst : Node),
    mid + i + count ≤ bptreeOrder → BPTree.moveEntries src mid count i dst = .ok
      { dst with
        keys := fun j => if i ≤ j ∧ j < i + count then src.keys (mid + j) else dst.keys j
        rowIds := fun j =>
          if i ≤ j ∧ j < i + count then src.rowIds (mid + j) else dst.rowIds j } := by
  intro count
  induction count with
  | zero =>
      intro i dst _
      rw [BPTree.moveEntries]
      have : ∀ j, ¬ (i ≤ j ∧ j < i + 0) := by omega
      simp only [this, if_false]
  | succ count ih =>
      intro i dst hcap
      rw [BPTree.moveEntries]
      simp only [Node.key_of_lt (show mid + i < bptreeOrder by omega),
        Node.rowId_of_lt (show mid + i < bptreeOrder by omega),
        Node.setKey_of_lt (show i < bptreeOrder by omega),
        Node.setRowId_of_lt (show i < bptreeOrder by omega), Outcome.bind_ok]
      rw [ih _ _ (by omega)]
      congr 1
      simp only [setAt, Node.mk.injEq, true_and, and_true]
      constructor <;> funext j <;> repeat' split
      all_goals first | rfl | omega | (congr 1; omega)

theorem moveKeys_spec (src : Node) (mid : Nat) : ∀ (count i : Nat) (dst : Node),
    mid + 1 + i + count ≤ bptreeOrder → BPTree.moveKeys src mid count i dst = .ok
      { dst with
        keys := fun j =>
          if i ≤ j ∧ j < i + count then src.keys (mid + 1 + j) else dst.keys j } := by
  intro count
  induction count with
  | zero =>
      intro i dst _
      rw [BPTree.moveKeys]
      have : ∀ j, ¬ (i ≤ j ∧ j < i + 0) := by omega
      simp only [this, if_false]
  | succ count ih =>
      intro i dst hcap
      rw [BPTree.moveKeys]
      simp only [Node.key_of_lt (show mid + 1 + i < bptreeOrder by omega),
        Node.setKey_of_lt (show i < bptreeOrder by omega), Outcome.bind_ok]
      rw [ih _ _ (by omega)]
      congr 1
      simp only [setAt, Node.mk.injEq, true_and, and_true]
      funext j
      repeat' split
      all_goals first | rfl | omega | (congr 1; omega)

/-- The search for a child among the pointers in use finds it. -/
theorem childPos_spec {parent : Node} {left : NodeId} {pos : Nat}
    (hpos : parent.children pos = some left)
    (hne : ∀ i, i < pos → parent.children i ≠ some left)
    (hcap : pos ≤ bptreeOrder) :
    ∀ count i, i ≤ pos → pos < i + count →
      BPTree.childPos parent left count i = .ok pos := by
  intro count
  induction count with
  | zero => intro i h₁ h₂; omega
  | succ count ih =>
      intro i h₁ h₂
      rw [BPTree.childPos, Outcome.bind_of_ok (Node.child_of_le (by omega))]
      rcases Nat.eq_or_lt_of_le h₁ with rfl | hlt
      · rw [if_pos hpos]
      · rw [if_neg (hne i hlt)]
        exact ih (i + 1) hlt (by omega)

end Loops

end FlexQL.Proofs
