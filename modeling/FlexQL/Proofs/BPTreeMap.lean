import FlexQL.Proofs.BPTreeScan
import FlexQL.Spec.BPTree
import Mathlib.Data.Finset.Card

/-!
# The index as a map, over whole histories

The invariant holds of the fresh tree and every insertion keeps it, so it
holds after any history of insertions of comparable keys, and what the leaves
contain is the history folded with `upsert`. The rest is read off the two:
what `find`, `size` and the scans answer, and what `OrderLinks` says about
the nodes.
-/

namespace FlexQL.Proofs

open Lib FlexQL.Ref FlexQL.Spec

/-! ## Histories -/

section Histories

variable {P : Value → Prop} {t : BPTree} {leaves : List Slot} {uppers : List (List Slot)}

theorem inv_new (P : Value → Prop) (ty : DataType) :
    Inv P (BPTree.new ty) [⟨0, none, none⟩] [] := by
  refine ⟨⟨0, rfl, rfl, rfl⟩, ?_, List.nodup_singleton 0, ?_, ⟨rfl, rfl, trivial⟩, rfl, rfl, rfl⟩
  · intro s hs
    obtain rfl := List.mem_singleton.mp hs
    have hnone : ∀ i, ¬ i < ((BPTree.new ty).pool.cell 0).numKeys := fun i => Nat.not_lt_zero i
    exact ⟨⟨rfl, ⟨fun i j _ hj => absurd hj (hnone j), fun i hi => absurd hi (hnone i)⟩,
      ⟨by simp, by simp⟩, fun i hi => absurd hi (hnone i), fun i hi => absurd hi (hnone i)⟩,
      (by decide : 0 < bptreeOrder)⟩
  · intro s hs
    obtain rfl := List.mem_singleton.mp hs
    exact Nat.zero_lt_one

/-- What the tree contains after a history. -/
def stored (l : List (Value × Nat)) (ops : List (Value × Nat)) : List (Value × Nat) :=
  ops.foldl (fun l op => upsert Value.lt Value.eq op.1 op.2 l) l

theorem Inv.insertAll (o : WeakOrderOn P Value.lt Value.eq) {ops : List (Value × Nat)}
    (hops : ∀ op ∈ ops, P op.1) (hi : Inv P t leaves uppers) :
    ∃ t' leaves' uppers', t.insertAll ops = .ok t' ∧ Inv P t' leaves' uppers' ∧
      contents t'.pool leaves' = stored (contents t.pool leaves) ops ∧
      t'.keyType = t.keyType := by
  induction ops generalizing t leaves uppers with
  | nil => exact ⟨t, leaves, uppers, rfl, hi, rfl, rfl⟩
  | cons op ops ih =>
      obtain ⟨t₁, l₁, u₁, hrun, hi₁, hc₁, hk₁⟩ := hi.insert o (hops op (by simp)) op.2
      obtain ⟨t₂, l₂, u₂, hrun₂, hi₂, hc₂, hk₂⟩ := ih (fun x hx => hops x (by simp [hx])) hi₁
      refine ⟨t₂, l₂, u₂, ?_, hi₂, ?_, hk₂.trans hk₁⟩
      · rw [BPTree.insertAll, hrun, Outcome.bind_ok]
        exact hrun₂
      · rw [hc₂, hc₁]
        rfl

/-- Every history of comparable keys runs through, and leaves a tree. -/
theorem insertAll_inv (o : WeakOrderOn P Value.lt Value.eq) (ty : DataType)
    {ops : List (Value × Nat)} (hops : ∀ op ∈ ops, P op.1) :
    ∃ t leaves uppers, (BPTree.new ty).insertAll ops = .ok t ∧ Inv P t leaves uppers ∧
      contents t.pool leaves = stored [] ops := by
  obtain ⟨t, l, u, hrun, hi, hc, _⟩ := (inv_new P ty).insertAll o hops
  exact ⟨t, l, u, hrun, hi, hc⟩

end Histories

/-! ## The map -/

section Map

variable {ty : DataType} {ops : List (Value × Nat)}

theorem latest_append (ops : List (Value × Nat)) (op : Value × Nat) (k : Value) :
    latest (ops ++ [op]) k = if op.1 = k then some op.2 else latest ops k := by
  rw [latest, List.reverse_append, List.reverse_singleton, List.singleton_append,
    List.find?_cons]
  by_cases h : op.1 = k <;> simp [h, latest]

theorem stored_append (l ops : List (Value × Nat)) (op : Value × Nat) :
    stored l (ops ++ [op]) = upsert Value.lt Value.eq op.1 op.2 (stored l ops) := by
  simp [stored]

theorem stored_typed {P : Value → Prop} (hops : ∀ op ∈ ops, P op.1) :
    ∀ e ∈ stored [] ops, P e.1 := by
  induction ops using List.reverseRecOn with
  | nil => simp [stored]
  | append_singleton ops op ih =>
      rw [stored_append]
      exact upsert_typed (hops op (by simp)) (ih fun x hx => hops x (by simp [hx]))

/-- The row id of the last insertion of a key tied with `k`. -/
def tied (ops : List (Value × Nat)) (k : Value) : Option Nat :=
  (ops.reverse.find? fun op => op.1.eq k).map (·.2)

theorem tied_append (ops : List (Value × Nat)) (op : Value × Nat) (k : Value) :
    tied (ops ++ [op]) k = if op.1.eq k then some op.2 else tied ops k := by
  rw [tied, List.reverse_append, List.reverse_singleton, List.singleton_append,
    List.find?_cons]
  cases op.1.eq k <;> simp [tied]

/-- A lookup in what is stored finds the last insertion of the key. -/
theorem lookup_stored_tied {P : Value → Prop} (o : WeakOrderOn P Value.lt Value.eq)
    (hops : ∀ op ∈ ops, P op.1) {k : Value} (hk : P k) :
    lookup Value.eq (stored [] ops) k = tied ops k := by
  induction ops using List.reverseRecOn with
  | nil => rfl
  | append_singleton ops op ih =>
      have hpre : ∀ x ∈ ops, P x.1 := fun x hx => hops x (by simp [hx])
      rw [stored_append, lookup_upsert o (hops op (by simp)) hk (stored_typed hpre), ih hpre,
        tied_append]

theorem tied_eq_latest (hty : Exact ty) (hops : ∀ op ∈ ops, op.1.type = ty) {k : Value}
    (hk : k.type = ty) : tied ops k = latest ops k := by
  induction ops using List.reverseRecOn with
  | nil => rfl
  | append_singleton ops op ih =>
      rw [tied_append, latest_append, ih fun x hx => hops x (by simp [hx])]
      simp only [eq_iff_of_exact hty (hops op (by simp)) hk]

theorem lookup_stored (hty : Exact ty) (hops : ∀ op ∈ ops, op.1.type = ty) {k : Value}
    (hk : k.type = ty) : lookup Value.eq (stored [] ops) k = latest ops k := by
  rw [lookup_stored_tied (valueOrder ty) (fun op hop => comparable_of_exact hty (hops op hop))
    (comparable_of_exact hty hk), tied_eq_latest hty hops hk]

theorem Inv.mem_iff_latest (hty : Exact ty) (hops : ∀ op ∈ ops, op.1.type = ty)
    {t : BPTree} {leaves : List Slot} {uppers : List (List Slot)}
    (hi : Inv (Comparable ty) t leaves uppers) (hc : contents t.pool leaves = stored [] ops)
    {k : Value} {r : Nat} :
    (k, r) ∈ contents t.pool leaves ↔ k.type = ty ∧ latest ops k = some r := by
  have hlook : ∀ {k : Value}, k.type = ty →
      lookup Value.eq (contents t.pool leaves) k = latest ops k := by
    rw [hc]
    exact lookup_stored hty hops
  constructor
  · intro hm
    have hk := (hi.contents_typed _ hm).type
    rw [← hlook hk]
    exact ⟨hk, lookup_of_mem (valueOrder ty) hi.contents_typed (hi.ascending (valueOrder ty)) hm⟩
  · rintro ⟨hk, hl⟩
    rw [← hlook hk] at hl
    obtain ⟨k', hm, he⟩ := mem_of_lookup hl
    obtain rfl : k' = k := (eq_iff_of_exact hty (hi.contents_typed _ hm).type hk).mp he
    exact hm

theorem latest_isSome {k : Value} :
    (∃ r, latest ops k = some r) ↔ k ∈ ops.map Prod.fst := by
  rw [← Option.isSome_iff_exists, latest, Option.isSome_map, List.find?_isSome]
  simp only [List.mem_reverse, decide_eq_true_eq, List.mem_map]

theorem latest_mem {k : Value} {r : Nat} (h : latest ops k = some r) : (k, r) ∈ ops := by
  obtain ⟨op, hop, rfl⟩ := Option.map_eq_some_iff.mp h
  have hk := List.find?_some hop
  rw [decide_eq_true_eq] at hk
  rw [← hk]
  exact List.mem_reverse.mp (List.mem_of_find?_eq_some hop)

theorem Inv.mem_latest (hty : Exact ty) (hops : ∀ op ∈ ops, op.1.type = ty)
    {t : BPTree} {leaves : List Slot} {uppers : List (List Slot)}
    (hi : Inv (Comparable ty) t leaves uppers) (hc : contents t.pool leaves = stored [] ops)
    (k : Value) (r : Nat) : (k, r) ∈ contents t.pool leaves ↔ latest ops k = some r := by
  rw [hi.mem_iff_latest hty hops hc]
  exact ⟨fun h => h.2, fun h => ⟨hops _ (latest_mem h), h⟩⟩

theorem toInt64_of_lt {r : Nat} (h : r < 2 ^ 63) : BPTree.toInt64 r = r := by
  rw [BPTree.toInt64, Nat.mod_eq_of_lt (by omega), if_pos h]

/-- The tree refines the finite map of its history: `find` answers the last
insertion, `size` counts the distinct keys, and a full scan visits the latest
row id of every key in ascending order of the keys. -/
theorem insertAll_refines_map (ty : DataType) (hty : Exact ty) (ops : List (Value × Nat))
    (hkeys : ∀ op ∈ ops, op.1.type = ty) (hids : ∀ op ∈ ops, op.2 < 2 ^ 63) :
    ∃ t, (BPTree.new ty).insertAll ops = .ok t ∧
      (∀ k : Value, k.type = ty → t.find k = .ok (match latest ops k with
        | some r => (r : Int)
        | none => -1)) ∧
      t.size = (ops.map Prod.fst).toFinset.card ∧
      ∃ es : List (Value × Nat), es.Pairwise (fun e e' => e.1.lt e'.1 = true) ∧
        (∀ k r, (k, r) ∈ es ↔ latest ops k = some r) ∧
        ∀ (σ : Type) (cb : BPTree.RangeCallback σ) (s : σ), (∀ s r, (cb s r).2 = true) →
          t.scanAll cb s = .ok (es.foldl (fun s e => (cb s e.2).1) s) := by
  have o := valueOrder ty
  obtain ⟨t, leaves, uppers, hrun, hi, hc⟩ := insertAll_inv o ty
    fun op hop => comparable_of_exact hty (hkeys op hop)
  have hasc := hi.ascending o
  have hmem := hi.mem_latest hty hkeys hc
  refine ⟨t, hrun, ?_, ?_, contents t.pool leaves, hasc, hmem, ?_⟩
  · intro k hk
    rw [hi.find o (comparable_of_exact hty hk), hc, lookup_stored hty hkeys hk]
    cases hl : latest ops k with
    | none => rfl
    | some r => exact congrArg _ (toInt64_of_lt (hids _ (latest_mem hl)))
  · have hnd : ((contents t.pool leaves).map Prod.fst).Nodup := by
      rw [List.Nodup, List.pairwise_map]
      refine hasc.imp_of_mem fun {e e'} he _ hlt heq => ?_
      rw [heq, o.irrefl (heq ▸ hi.contents_typed e he)] at hlt
      exact absurd hlt (by simp)
    rw [hi.size, ← List.length_map Prod.fst, ← List.toFinset_card_of_nodup hnd]
    congr 1
    ext k
    have hin : (∃ r, latest ops k = some r) ↔ k ∈ ops.map Prod.fst := latest_isSome
    rw [List.mem_toFinset, List.mem_toFinset, ← hin]
    simp only [List.mem_map, Prod.exists, exists_and_right, exists_eq_right, hmem]
  · intro σ cb s hcb
    rw [hi.scanAll, feed_of_continues hcb, List.foldl_map]

theorem insertAll_refines_map_overwrite :
    ∃ t, (BPTree.new .int).insertAll [(.int 5, 0), (.int 3, 1), (.int 5, 2)] = .ok t ∧
      t.find (.int 5) = .ok 2 ∧ t.find (.int 4) = .ok (-1) ∧ t.size = 2 := by
  obtain ⟨t, hrun, hfind, hsize, _⟩ := insertAll_refines_map .int (.inl rfl)
    [(.int 5, 0), (.int 3, 1), (.int 5, 2)] (by decide) (by decide)
  exact ⟨t, hrun, hfind (.int 5) rfl, hfind (.int 4) rfl, hsize.trans (by decide)⟩

/-- The ranges are exact: each of them calls the callback with the row ids of
the stored keys that compare with `k` as it says, in ascending order of the
keys, up to the first call that returns `false`. -/
theorem insertAll_ranges (ty : DataType) (hty : Exact ty) (ops : List (Value × Nat))
    (hkeys : ∀ op ∈ ops, op.1.type = ty) :
    ∃ t, (BPTree.new ty).insertAll ops = .ok t ∧
      ∃ es : List (Value × Nat), es.Pairwise (fun e e' => e.1.lt e'.1 = true) ∧
        (∀ k r, (k, r) ∈ es ↔ latest ops k = some r) ∧
        ∀ (k : Value), k.type = ty → ∀ (σ : Type) (cb : BPTree.RangeCallback σ) (s : σ),
          t.rangeEq k cb s = .ok (feed cb (selected es fun x => x.eq k) s) ∧
          t.rangeLt k cb s = .ok (feed cb (selected es fun x => x.lt k) s) ∧
          t.rangeLe k cb s = .ok (feed cb (selected es fun x => x.le k) s) ∧
          t.rangeGt k cb s = .ok (feed cb (selected es fun x => x.gt k) s) ∧
          t.rangeGe k cb s = .ok (feed cb (selected es fun x => x.ge k) s) ∧
          t.rangeNe k cb s = .ok (feed cb (selected es fun x => x.ne k) s) := by
  have o := valueOrder ty
  obtain ⟨t, leaves, uppers, hrun, hi, hc⟩ := insertAll_inv o ty
    fun op hop => comparable_of_exact hty (hkeys op hop)
  refine ⟨t, hrun, contents t.pool leaves, hi.ascending o, hi.mem_latest hty hkeys hc, ?_⟩
  intro k hk σ cb s
  have hP := comparable_of_exact hty hk
  exact ⟨hi.rangeEq o hP s, hi.rangeLt o hP s, hi.rangeLe o hP s, hi.rangeGt o hP s,
    hi.rangeGe o hP s, hi.rangeNe s⟩

/-- A key that was overwritten and one that was not, and a callback that wants
only the first. -/
theorem insertAll_ranges_abort :
    ∃ t es, (BPTree.new .int).insertAll [(.int 5, 0), (.int 3, 1), (.int 5, 2)] = .ok t ∧
      (.int 3, 1) ∈ es ∧ (.int 5, 2) ∈ es ∧
      t.rangeGe (.int 2) (fun (l : List Nat) r => (l ++ [r], false)) []
        = .ok (feed (fun (l : List Nat) r => (l ++ [r], false))
          (selected es fun x => x.ge (.int 2)) []) := by
  obtain ⟨t, hrun, es, _, hmem, hranges⟩ := insertAll_ranges .int (.inl rfl)
    [(.int 5, 0), (.int 3, 1), (.int 5, 2)] (by decide)
  exact ⟨t, es, hrun, (hmem _ _).mpr rfl, (hmem _ _).mpr rfl,
    (hranges (.int 2) rfl _ _ _).2.2.2.2.1⟩

end Map

end FlexQL.Proofs
