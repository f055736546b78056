import FlexQL.Proofs.BPTreeInsert
import FlexQL.Spec.BPTree

/-!
# Scanning the leaves

Every scan of the tree runs along the chain of leaves, so it is one pass over
the list the leaves contain, from the left end or from the place of a key.
`visit` is that pass. It calls the callback with the row ids a verdict selects,
up to the first call that returns `false`, and because the list is ascending
the verdicts of the six operators select exactly the entries the operator
holds for.
-/

namespace FlexQL.Proofs

open Lib FlexQL.Ref FlexQL.Spec

variable {P : Value → Prop} {σ : Type}

/-- A scan over a list of entries; `false` when it has ended early. -/
def visit (verdict : Value → BPTree.Verdict) (cb : BPTree.RangeCallback σ) :
    List (Value × Nat) → σ → σ × Bool
  | [], s => (s, true)
  | e :: l, s =>
      match verdict e.1 with
      | .stop => (s, false)
      | .skip => visit verdict cb l s
      | .visit =>
          match cb s e.2 with
          | (s, false) => (s, false)
          | (s, true) => visit verdict cb l s

section Visit

variable {verdict : Value → BPTree.Verdict} {cb : BPTree.RangeCallback σ}

theorem visit_append (a b : List (Value × Nat)) (s : σ) :
    visit verdict cb (a ++ b) s = match visit verdict cb a s with
      | (s, true) => visit verdict cb b s
      | (s, false) => (s, false) := by
  induction a generalizing s with
  | nil => rfl
  | cons e a ih =>
      simp only [List.cons_append, visit]
      cases verdict e.1 with
      | stop => rfl
      | skip => exact ih s
      | visit =>
          obtain ⟨s', b'⟩ := cb s e.2
          cases b' with
          | false => rfl
          | true => exact ih s'

/-! ## The loops -/

theorem scanKeys_spec (leaf : Node) : ∀ (count i : Nat) (s : σ), i + count ≤ bptreeOrder →
    BPTree.scanKeys leaf verdict cb count i s
      = .ok (visit verdict cb
          (firstN (fun j => (leaf.keys (i + j), leaf.rowIds (i + j))) count) s) := by
  intro count
  induction count with
  | zero => intro i s _; rfl
  | succ count ih =>
      intro i s hcap
      have hnext := fun s => ih (i + 1) s (by omega)
      have hshift : ∀ j, i + 1 + j = i + (1 + j) := fun j => by omega
      rw [BPTree.scanKeys, Node.key_of_lt (by omega), Outcome.bind_ok, firstN_cons]
      simp only [visit, Nat.add_zero]
      simp only [hshift] at hnext
      cases verdict (leaf.keys i) with
      | stop => rfl
      | skip => simp only [hnext, Nat.add_comm 1]
      | visit =>
          simp only [Node.rowId_of_lt (show i < bptreeOrder by omega), Outcome.bind_ok]
          obtain ⟨s', b⟩ := cb s (leaf.rowIds i)
          cases b with
          | false => rfl
          | true => simp only [hnext, Nat.add_comm 1]

/-- The entries of a leaf from index `pos` on. -/
def entriesFrom (n : Node) (pos : Nat) : List (Value × Nat) :=
  firstN (fun j => (n.keys (pos + j), n.rowIds (pos + j))) (n.numKeys - pos)

theorem entriesFrom_zero (n : Node) : entriesFrom n 0 = entries n := by
  simp [entriesFrom, entries]

theorem scanChain_step {h : Heap Node} {p : NodeId} {pos : Nat} (fuel : Nat) (s : σ)
    (hp : p < h.size) (hcap : (h.cell p).numKeys ≤ bptreeOrder)
    (hpos : pos ≤ (h.cell p).numKeys) :
    BPTree.scanChain h verdict cb (fuel + 1) (some p) pos s =
      match visit verdict cb (entriesFrom (h.cell p) pos) s with
      | (s, true) => BPTree.scanChain h verdict cb fuel (h.cell p).next 0 s
      | (s, false) => .ok s := by
  rw [BPTree.scanChain, Heap.get_of_lt hp, Outcome.bind_ok,
    scanKeys_spec _ _ _ _ (by omega), Outcome.bind_ok, entriesFrom]
  generalize visit verdict cb _ s = r
  obtain ⟨s', b⟩ := r
  cases b <;> rfl

/-- The chain of leaves from one of them on. -/
theorem scanChain_spec {h : Heap Node} : ∀ (l : List Slot) {a : Option NodeId}
    {fuel : Nat} (s : σ), Linked h a (ids l) → (∀ c ∈ l, c.id < h.size) →
    (∀ c ∈ l, (h.cell c.id).numKeys ≤ bptreeOrder) → l.length ≤ fuel →
    BPTree.scanChain h verdict cb fuel (ids l).head? 0 s
      = .ok (visit verdict cb (contents h l) s).1 := by
  intro l
  induction l with
  | nil => intro a fuel s _ _ _ _; cases fuel <;> rfl
  | cons c l ih =>
      intro a fuel s hl hal hcap hf
      obtain ⟨f, rfl⟩ : ∃ f, fuel = f + 1 := ⟨fuel - 1, by simp at hf; omega⟩
      obtain ⟨_, hnext, hrest⟩ := hl
      rw [ids_cons, List.head?_cons, scanChain_step f s (hal c (by simp)) (hcap c (by simp))
        (Nat.zero_le _), hnext, entriesFrom_zero, contents_cons, visit_append]
      obtain ⟨s', b⟩ := visit verdict cb (entries (h.cell c.id)) s
      cases b with
      | false => rfl
      | true =>
          exact ih s' hrest (fun c hc => hal c (by simp [hc]))
            (fun c hc => hcap c (by simp [hc])) (by simpa using hf)

theorem Linked.suffix {h : Heap Node} {r : List NodeId} : ∀ {l : List NodeId}
    {a : Option NodeId}, Linked h a (l ++ r) → ∃ b, Linked h b r := by
  intro l
  induction l with
  | nil => intro a hl; exact ⟨a, hl⟩
  | cons b l ih => intro a hl; exact ih hl.2.2

end Visit

/-! ## From the left end, and from a key -/

section Scans

variable {t : BPTree} {leaves : List Slot} {uppers : List (List Slot)}
  {verdict : Value → BPTree.Verdict} {cb : BPTree.RangeCallback σ}

theorem Inv.leaves_le (hi : Inv P t leaves uppers) : leaves.length ≤ t.pool.size := by
  have hsub : (ids leaves).length ≤ (List.range t.pool.size).length :=
    ((List.nodup_append'.mp (ids_append .. ▸ hi.nodup)).1.subperm fun q hq =>
      List.mem_range.mpr (hi.ids_lt q (by
        rw [ids_append]
        exact List.mem_append_left _ hq))).length_le
  simpa [ids] using hsub

theorem Inv.scanFromLeft (hi : Inv P t leaves uppers) (s : σ) :
    t.scanFromLeft verdict cb s = .ok (visit verdict cb (contents t.pool leaves) s).1 := by
  rw [BPTree.scanFromLeft, hi.leftmost]
  exact scanChain_spec leaves s hi.linked
    (fun c hc => hi.alloc c (List.mem_append_left _ hc))
    (fun c hc => Nat.le_of_lt (hi.leaf c hc).cap) hi.leaves_le

/-- A scan from the place of `key` runs over the entries not below it. -/
theorem Inv.scanFromKey (o : WeakOrderOn P Value.lt Value.eq) (hi : Inv P t leaves uppers)
    {key : Value} (hk : P key) (s : σ) :
    t.scanFromKey key verdict cb s = .ok (visit verdict cb
      ((contents t.pool leaves).filter fun e => !e.1.lt key) s).1 := by
  obtain ⟨c, hc, hleaf, hlo, hhi⟩ := hi.findLeaf o hk
  obtain ⟨l, l', rfl⟩ := List.append_of_mem hc
  obtain ⟨hleft, hright⟩ := hi.sides o hk hlo hhi
  obtain ⟨hn, hcap⟩ := hi.leaf c hc
  obtain ⟨pos, hpos, hsp⟩ := lowerBound_spec o hn.keys hk (Nat.le_of_lt hcap)
  have hal : c.id < t.pool.size := hi.alloc c (List.mem_append_left _ hc)
  have hty := hi.contents_typed
  rw [contents_append, contents_cons] at hty
  -- the entries of the leaf before `pos` are below the key, the others are not
  have hfilter : (contents t.pool (l ++ c :: l')).filter (fun e => !e.1.lt key)
      = entriesFrom (t.pool.cell c.id) pos ++ contents t.pool l' := by
    have hentries : entries (t.pool.cell c.id) = firstN (fun i => ((t.pool.cell c.id).keys i,
        (t.pool.cell c.id).rowIds i)) pos ++ entriesFrom (t.pool.cell c.id) pos :=
      firstN_cut _ hsp.le
    rw [contents_append, contents_cons, hentries, List.filter_append, List.filter_append,
      List.filter_append, List.filter_eq_nil_iff.mpr, List.filter_eq_nil_iff.mpr,
      List.filter_eq_self.mpr, List.filter_eq_self.mpr, List.nil_append, List.nil_append]
    · intro e he
      rw [o.asymm hk (hty e (by simp [he])) (hright e he)]
      rfl
    · intro e he
      obtain ⟨i, hi', rfl⟩ := mem_firstN.mp he
      simp only [hsp.above (pos + i) (by omega) (by omega), Bool.not_false]
    · intro e he
      obtain ⟨i, hi', rfl⟩ := mem_firstN.mp he
      simp only [hsp.below i hi', Bool.not_true, Bool.false_eq_true, not_false_eq_true]
    · intro e he
      simp only [hleft e he, Bool.not_true, Bool.false_eq_true, not_false_eq_true]
  obtain ⟨f, hf⟩ := Nat.exists_eq_succ_of_ne_zero (Nat.ne_zero_of_lt hal)
  obtain ⟨b, hlinked⟩ := Linked.suffix (l := ids l) (r := c.id :: ids l')
    (by simpa only [ids_append, ids_cons] using hi.linked)
  have hlen := hi.leaves_le
  rw [hfilter, visit_append, BPTree.scanFromKey]
  simp only [hleaf, Outcome.bind_ok, Heap.get_of_lt hal, hpos]
  rw [hf, scanChain_step f s hal (Nat.le_of_lt hcap) hsp.le, hlinked.2.1]
  obtain ⟨s', b⟩ := visit verdict cb (entriesFrom (t.pool.cell c.id) pos) s
  cases b with
  | false => rfl
  | true =>
      refine scanChain_spec l' s' hlinked.2.2 (fun c hc => hi.alloc c (by simp [hc]))
        (fun c hc => Nat.le_of_lt (hi.leaf c (by simp [hc])).cap) ?_
      simp only [List.length_append, List.length_cons] at hlen
      omega

end Scans

/-! ## What the callback is called with -/

section Feed

variable {cb : BPTree.RangeCallback σ}

/-- A scan that skips what `p` does not hold for. -/
theorem visit_select {verdict : Value → BPTree.Verdict}
    (p : Value → Bool) (hv : ∀ k, verdict k = if p k then .visit else .skip)
    (l : List (Value × Nat)) (s : σ) :
    (visit verdict cb l s).1 = feed cb (selected l p) s := by
  induction l generalizing s with
  | nil => rfl
  | cons e l ih =>
      cases hp : p e.1 with
      | false =>
          rw [visit, hv, hp, selected, List.filter_cons_of_neg (by simp [hp])]
          exact ih s
      | true =>
          rw [visit, hv, hp, selected, List.filter_cons_of_pos (by simp [hp]), List.map_cons, feed]
          obtain ⟨s', b⟩ := cb s e.2
          cases b with
          | false => rfl
          | true => exact ih s'

theorem visit_all (l : List (Value × Nat)) (s : σ) :
    (visit (fun _ => .visit) cb l s).1 = feed cb (l.map (·.2)) s := by
  have h := @visit_select σ cb (fun _ => .visit) (fun _ => true) (fun _ => rfl) l s
  rwa [selected, List.filter_true] at h

/-- A scan that ends at the first entry `p` does not hold for, where no later
one can. -/
theorem visit_until {verdict : Value → BPTree.Verdict}
    (p : Value → Bool) (hv : ∀ k, verdict k = if p k then .visit else .stop)
    (l : List (Value × Nat)) (hl : l.Pairwise fun e e' => p e'.1 = true → p e.1 = true)
    (s : σ) : (visit verdict cb l s).1 = feed cb (selected l p) s := by
  induction l generalizing s with
  | nil => rfl
  | cons e l ih =>
      obtain ⟨he, hl⟩ := List.pairwise_cons.mp hl
      cases hp : p e.1 with
      | false =>
          have hnone : ∀ x ∈ e :: l, ¬ p x.1 = true := by
            intro x hx hpx
            rcases List.mem_cons.mp hx with rfl | hx
            · exact absurd hpx (by simp [hp])
            · exact absurd (he x hx hpx) (by simp [hp])
          rw [visit, hv, hp, selected, List.filter_eq_nil_iff.mpr hnone]
          rfl
      | true =>
          rw [visit, hv, hp, selected, List.filter_cons_of_pos (by simp [hp]), List.map_cons, feed]
          obtain ⟨s', b⟩ := cb s e.2
          cases b with
          | false => rfl
          | true => exact ih hl s'

/-- A callback that never aborts is folded over the row ids. -/
theorem feed_of_continues (hcb : ∀ s r, (cb s r).2 = true) (l : List Nat) (s : σ) :
    feed cb l s = l.foldl (fun s r => (cb s r).1) s := by
  induction l generalizing s with
  | nil => rfl
  | cons r l ih =>
      have hcall : cb s r = ((cb s r).1, true) := Prod.ext rfl (hcb s r)
      rw [feed, hcall, List.foldl_cons]
      exact ih _

end Feed

/-! ## The operators -/

section Ranges

variable {t : BPTree} {leaves : List Slot} {uppers : List (List Slot)}
  {cb : BPTree.RangeCallback σ} {key : Value}

theorem Inv.scanAll (hi : Inv P t leaves uppers) (s : σ) :
    t.scanAll cb s = .ok (feed cb ((contents t.pool leaves).map (·.2)) s) := by
  rw [BPTree.scanAll, hi.scanFromLeft, visit_all]

theorem Inv.rangeNe (hi : Inv P t leaves uppers) (s : σ) : t.rangeNe key cb s
      = .ok (feed cb (selected (contents t.pool leaves) fun k => k.ne key) s) := by
  rw [BPTree.rangeNe, hi.scanFromLeft, visit_select fun k => k.ne key]
  intro k
  rw [Value.ne]
  cases k.eq key <;> rfl

theorem Inv.rangeLt (o : WeakOrderOn P Value.lt Value.eq) (hi : Inv P t leaves uppers)
    (hk : P key) (s : σ) : t.rangeLt key cb s
      = .ok (feed cb (selected (contents t.pool leaves) fun k => k.lt key) s) := by
  rw [BPTree.rangeLt, hi.scanFromLeft, visit_until fun k => k.lt key]
  · intro k
    rw [Value.ge]
    cases k.lt key <;> rfl
  · refine List.Pairwise.imp_of_mem ?_ (hi.ascending o)
    intro e e' he he' hlt hle
    exact o.trans (hi.contents_typed e he) (hi.contents_typed e' he') hk hlt hle

theorem Inv.rangeLe (o : WeakOrderOn P Value.lt Value.eq) (hi : Inv P t leaves uppers)
    (hk : P key) (s : σ) : t.rangeLe key cb s
      = .ok (feed cb (selected (contents t.pool leaves) fun k => k.le key) s) := by
  rw [BPTree.rangeLe, hi.scanFromLeft, visit_until fun k => k.le key]
  · intro k
    rw [Value.gt, Value.le]
    cases key.lt k <;> rfl
  · refine List.Pairwise.imp_of_mem ?_ (hi.ascending o)
    intro e e' he he' hlt hle
    have hPe := hi.contents_typed e he
    rw [Value.le, Bool.not_eq_true'] at hle ⊢
    exact o.asymm hPe hk (o.lt_of_lt_of_le hPe (hi.contents_typed e' he') hk hlt hle)

theorem Inv.rangeGe (o : WeakOrderOn P Value.lt Value.eq) (hi : Inv P t leaves uppers)
    (hk : P key) (s : σ) : t.rangeGe key cb s
      = .ok (feed cb (selected (contents t.pool leaves) fun k => k.ge key) s) := by
  rw [BPTree.rangeGe, hi.scanFromKey o hk, visit_all]
  rfl

theorem Inv.rangeGt (o : WeakOrderOn P Value.lt Value.eq) (hi : Inv P t leaves uppers)
    (hk : P key) (s : σ) : t.rangeGt key cb s
      = .ok (feed cb (selected (contents t.pool leaves) fun k => k.gt key) s) := by
  rw [BPTree.rangeGt, hi.scanFromKey o hk, visit_select (fun k => k.gt key) fun _ => rfl,
    selected, List.filter_filter, selected]
  congr 3
  refine List.filter_congr fun e he => ?_
  cases hgt : e.1.gt key with
  | false => rfl
  | true =>
      rw [o.asymm hk (hi.contents_typed e he) hgt]
      rfl

/-- The entries of a leaf tied with a key: the one at its place, or none. -/
theorem filter_entries_eq (o : WeakOrderOn P Value.lt Value.eq) {n : Node} {pos : Nat}
    (hn : Keys P n) (hk : P key) (hs : Splits n key pos) :
    (entries n).filter (fun e => e.1.eq key) =
      if pos < n.numKeys ∧ (n.keys pos).eq key = true then [(n.keys pos, n.rowIds pos)]
      else [] := by
  split
  · next h =>
      have hbelow : ∀ e ∈ firstN (fun i => (n.keys i, n.rowIds i)) pos,
          ¬ e.1.eq key = true := by
        intro e he
        obtain ⟨i, hi, rfl⟩ := mem_firstN.mp he
        simp [o.ne_of_lt (hn.typed i (by omega)) hk (hs.below i hi)]
      have habove : ∀ e ∈ firstN (fun i => (n.keys (pos + 1 + i), n.rowIds (pos + 1 + i)))
          (n.numKeys - (pos + 1)), ¬ e.1.eq key = true := by
        intro e he
        obtain ⟨i, hi, rfl⟩ := mem_firstN.mp he
        have := Splits.lt_of_tie o hn hk h.1 h.2 (pos + 1 + i) (by omega) (by omega)
        simp [o.ne_of_gt (hn.typed (pos + 1 + i) (by omega)) hk this]
      rw [entries_split h.1, List.filter_append, List.filter_eq_nil_iff.mpr hbelow,
        List.filter_cons, if_pos h.2, List.filter_eq_nil_iff.mpr habove, List.nil_append]
  · next h =>
      rw [List.filter_eq_nil_iff]
      intro e he heq
      have hlook := lookup_entries o hn hk hs
      rw [if_neg h, lookup, Option.map_eq_none_iff, List.find?_eq_none] at hlook
      exact hlook e he heq

theorem Inv.rangeEq (o : WeakOrderOn P Value.lt Value.eq) (hi : Inv P t leaves uppers)
    (hk : P key) (s : σ) : t.rangeEq key cb s
      = .ok (feed cb (selected (contents t.pool leaves) fun k => k.eq key) s) := by
  obtain ⟨c, hc, hleaf, hlo, hhi⟩ := hi.findLeaf o hk
  obtain ⟨l, l', rfl⟩ := List.append_of_mem hc
  obtain ⟨hleft, hright⟩ := hi.sides o hk hlo hhi
  obtain ⟨hn, hcap⟩ := hi.leaf c hc
  obtain ⟨pos, hpos, hsp⟩ := lowerBound_spec o hn.keys hk (Nat.le_of_lt hcap)
  have hty := hi.contents_typed
  rw [contents_append, contents_cons] at hty
  have hfilter : (contents t.pool (l ++ c :: l')).filter (fun e => e.1.eq key)
      = (entries (t.pool.cell c.id)).filter fun e => e.1.eq key := by
    have hbelow : ∀ e ∈ contents t.pool l, ¬ e.1.eq key = true := fun e he => by
      simp [o.ne_of_lt (hty e (by simp [he])) hk (hleft e he)]
    have habove : ∀ e ∈ contents t.pool l', ¬ e.1.eq key = true := fun e he => by
      simp [o.ne_of_gt (hty e (by simp [he])) hk (hright e he)]
    rw [contents_append, contents_cons, List.filter_append, List.filter_append,
      List.filter_eq_nil_iff.mpr hbelow, List.filter_eq_nil_iff.mpr habove,
      List.nil_append, List.append_nil]
  rw [selected, hfilter, filter_entries_eq o hn.keys hk hsp, BPTree.rangeEq]
  simp only [hleaf, Outcome.bind_ok, hpos, keyIs_spec (Nat.le_of_lt hcap),
    Heap.get_of_lt (hi.alloc c (List.mem_append_left _ hc))]
  by_cases hf : pos < (t.pool.cell c.id).numKeys ∧ ((t.pool.cell c.id).keys pos).eq key = true
  · rw [if_pos hf, if_pos (by simpa using hf), Node.rowId_of_lt (by omega), Outcome.bind_ok,
      List.map_singleton, feed]
    obtain ⟨s', b⟩ := cb s ((t.pool.cell c.id).rowIds pos)
    cases b <;> rfl
  · rw [if_neg hf, if_neg (by simpa using hf)]
    rfl

end Ranges

end FlexQL.Proofs
