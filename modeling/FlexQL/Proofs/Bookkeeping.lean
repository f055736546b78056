import FlexQL.Proofs.LRUCache
import FlexQL.Spec.Bookkeeping

/-!
# The lists of keys grow past the cache

A new entry of a query with a `FROM` adds a key to a list. In a full cache it
takes the place of another entry, whose key stays listed. So the lists have at
most as many keys as there are entries only as long as that does not happen
with as many keys listed as there are entries; nothing else makes them longer.
-/

namespace FlexQL.Proofs

open Lib FlexQL.Ref FlexQL.Spec

variable {c c' : LRUCache} {s : Results}

/-- Moving a node touches neither map. -/
theorem touch_maps {id : Nat} {update : CachedResult → CachedResult} {r : CachedResult}
    (h : c.touch id update = .ok (c', r)) :
    c'.cacheMap = c.cacheMap ∧ c'.tableEntries = c.tableEntries := by
  rw [LRUCache.touch] at h
  split at h
  · exact absurd h (by simp)
  · obtain ⟨rfl, -⟩ := Prod.mk.inj (Except.ok.inj h)
    exact ⟨rfl, rfl⟩

theorem bounded_congr (hmap : c'.cacheMap = c.cacheMap)
    (hentries : c'.tableEntries = c.tableEntries) : Bounded c' ↔ Bounded c := by
  rw [Bounded, Bounded, keysListed, keysListed, LRUCache.size, LRUCache.size, hmap, hentries]

theorem get_bounded {query : Bytes} {answer : Option CachedResult}
    (h : c.get query = .ok (c', answer)) : Bounded c' ↔ Bounded c := by
  rw [LRUCache.get] at h
  split at h
  · obtain ⟨rfl, -⟩ := Prod.mk.inj (Except.ok.inj h)
    exact Iff.rfl
  · obtain ⟨⟨c₁, r⟩, htouch, hk⟩ := Outcome.bind_eq_ok.mp h
    obtain ⟨rfl, -⟩ := Prod.mk.inj (Except.ok.inj hk)
    obtain ⟨hmap, hentries⟩ := touch_maps htouch
    exact bounded_congr hmap hentries

/-- An eviction takes an entry of a full cache, and no key off a list. -/
theorem evict_cases (h : c.evict = .ok c') : c'.tableEntries = c.tableEntries ∧
    c'.lruList.length = if c.capacity ≤ c.size then c.lruList.length - 1 else c.lruList.length := by
  rw [LRUCache.evict] at h
  rw [LRUCache.size]
  split at h
  · next hfull =>
      rw [if_pos hfull]
      split at h
      · exact absurd h (by simp)
      · obtain rfl := Except.ok.inj h
        exact ⟨rfl, List.length_dropLast⟩
  · next hroom =>
      rw [if_neg hroom]
      obtain rfl := Except.ok.inj h
      exact ⟨rfl, rfl⟩

section Put

variable {query : Bytes} {result : CachedResult}

theorem put_known {id : Nat} (hk : c.cacheMap.lookup (LRUCache.normalize query) = some id)
    (hput : c.put query result = .ok c') : Bounded c' ↔ Bounded c := by
  simp only [LRUCache.put, hk] at hput
  obtain ⟨⟨c₁, r⟩, htouch, hok⟩ := Outcome.bind_eq_ok.mp hput
  obtain rfl := Except.ok.inj hok
  obtain ⟨hmap, hentries⟩ := touch_maps htouch
  exact bounded_congr hmap hentries

/-- A new entry: one key more if the query has a `FROM`, and one entry more if
there is room. -/
theorem put_new (h : Refines c s)
    (hk : c.cacheMap.lookup (LRUCache.normalize query) = none)
    (hput : c.put query result = .ok c') :
    keysListed c' = keysListed c +
      (if (LRUCache.extractTable (LRUCache.normalize query)).isSome then 1 else 0) ∧
    c'.size = if c.capacity ≤ c.size then c.size else c.size + 1 := by
  have hsize : c.size = c.lruList.length := h.synced.card
  have hroom : 1 ≤ c.capacity := h.capacity ▸ h.room
  obtain ⟨c₂, hput₂, h₂⟩ := put_refines h query result
  obtain rfl := Except.ok.inj (hput.symm.trans hput₂)
  have hsize' : c'.size = c'.lruList.length := h₂.synced.card
  simp only [LRUCache.put, hk] at hput
  obtain ⟨c₁, hevict, hok⟩ := Outcome.bind_eq_ok.mp hput
  obtain ⟨hentries, hlen⟩ := evict_cases hevict
  obtain rfl := Except.ok.inj hok
  constructor
  · simp only [keysListed, hentries]
    cases LRUCache.extractTable (LRUCache.normalize query) with
    | none => rfl
    | some table =>
        have htotal := Listing.total_insert c.tableEntries table
          ((c.tableEntries.lookup table).getD [] ++ [LRUCache.normalize query])
        rw [Listing.under, List.length_append, List.length_singleton] at htotal
        simp only [Option.isSome_some, if_true]
        omega
  · rw [hsize', List.length_cons, hlen]
    split
    · next hfull => omega
    · omega

theorem put_bounded (h : Refines c s) (hb : Bounded c) (hput : c.put query result = .ok c') :
    Bounded c' ↔ Spares c (.put query result) := by
  cases hk : c.cacheMap.lookup (LRUCache.normalize query) with
  | some id =>
      exact iff_of_true ((put_known hk hput).mpr hb)
        fun hnone => absurd (hk.symm.trans hnone) nofun
  | none =>
      obtain ⟨hlisted, hsize⟩ := put_new h hk hput
      rw [Bounded] at hb ⊢
      simp only [Spares, hlisted, hsize]
      constructor
      · intro hle _ hfrom hfull
        rw [if_pos hfrom, if_pos hfull] at hle
        omega
      · intro hspares
        by_cases hfrom : (LRUCache.extractTable (LRUCache.normalize query)).isSome
        · by_cases hfull : c.capacity ≤ c.size
          · have hlt := hspares hk hfrom hfull
            rw [if_pos hfrom, if_pos hfull]
            omega
          · rw [if_pos hfrom, if_neg hfull]
            omega
        · rw [if_neg hfrom]
          split <;> omega

end Put

/-- The loop takes out at most as many entries as there are keys. -/
theorem invalidateKeys_size {keys : List Bytes} (h : c.invalidateKeys keys = .ok c') :
    c'.tableEntries = c.tableEntries ∧ c.size ≤ c'.size + keys.length := by
  induction keys generalizing c with
  | nil =>
      obtain rfl := Except.ok.inj h
      exact ⟨rfl, Nat.le_refl _⟩
  | cons key keys ih =>
      rw [LRUCache.invalidateKeys] at h
      rw [List.length_cons]
      split at h
      · obtain ⟨hentries, hsize⟩ := ih h
        exact ⟨hentries, by omega⟩
      · split at h
        · obtain ⟨hentries, hsize⟩ := ih h
          have herase : c.size ≤ (c.cacheMap.erase key).keys.card + 1 := by
            rw [Finmap.keys_erase]
            exact Nat.le_add_of_sub_le Finset.pred_card_le_card_erase
          have hsize : (c.cacheMap.erase key).keys.card ≤ c'.size + keys.length := hsize
          exact ⟨hentries, by omega⟩
        · exact absurd h (by simp)

theorem invalidateTable_bounded {tableName : Bytes} (hb : Bounded c)
    (h : c.invalidateTable tableName = .ok c') : Bounded c' := by
  simp only [LRUCache.invalidateTable] at h
  split at h
  · obtain rfl := Except.ok.inj h
    exact hb
  · next keys hkeys =>
      obtain ⟨c₁, hloop, hok⟩ := Outcome.bind_eq_ok.mp h
      obtain rfl := Except.ok.inj hok
      obtain ⟨hentries, hsize⟩ := invalidateKeys_size hloop
      have htotal := Listing.total_erase c.tableEntries (Bytes.toUpper tableName)
      rw [Listing.under, hkeys, Option.getD_some] at htotal
      have hb : Listing.total c.tableEntries ≤ c.size := hb
      show Listing.total (c₁.tableEntries.erase (Bytes.toUpper tableName)) ≤ c₁.size
      rw [hentries]
      omega

/-- One call keeps the bound just when it spares the lists. -/
theorem bounded_step {call : CacheCall} {answer : Option (Option CachedResult)} (h : Refines c s)
    (hb : Bounded c) (hcall : cacheCall c call = .ok (c', answer)) :
    Bounded c' ↔ Spares c call := by
  cases call with
  | get query =>
      obtain ⟨⟨c₁, r⟩, hget, hok⟩ := Outcome.bind_eq_ok.mp hcall
      obtain ⟨rfl, -⟩ := Prod.mk.inj (Except.ok.inj hok)
      exact iff_of_true ((get_bounded hget).mpr hb) trivial
  | put query result =>
      obtain ⟨c₁, hput, hok⟩ := Outcome.bind_eq_ok.mp hcall
      obtain ⟨rfl, -⟩ := Prod.mk.inj (Except.ok.inj hok)
      exact put_bounded h hb hput
  | invalidateTable tableName =>
      obtain ⟨c₁, hinv, hok⟩ := Outcome.bind_eq_ok.mp hcall
      obtain ⟨rfl, -⟩ := Prod.mk.inj (Except.ok.inj hok)
      exact iff_of_true (invalidateTable_bounded hb hinv) trivial
  | clear =>
      obtain ⟨rfl, -⟩ := Prod.mk.inj (Except.ok.inj hcall)
      exact iff_of_true (Nat.zero_le _) trivial

/-- After any calls: the lists have at most as many keys as there are entries,
and these are at most as many as the capacity, at every point of a run whose
calls all spare the lists, and of no other. -/
theorem keysListed_bounded_iff {capacity : Nat} (hcap : 1 ≤ capacity) (calls : List CacheCall) :
    (∀ pre, pre <+: calls → ∃ c answers,
      Actions.runAll cacheCall (LRUCache.new capacity) pre = .ok (c, answers) ∧
      keysListed c ≤ c.size ∧ c.size ≤ capacity) ↔
    Actions.Along cacheCall (fun _ c call => Spares c call) [] (LRUCache.new capacity) calls := by
  have hroom : ∀ {c : LRUCache}, (∃ s, Refines c s ∧ s.capacity = capacity) →
      c.size ≤ capacity := by
    rintro c ⟨s, h, hs⟩
    have hbound := h.faithful.bound
    rw [← h.entries, resultsOf, List.length_map, hs] at hbound
    exact h.synced.card.trans_le hbound
  rw [Actions.along_iff_prefixes (R := fun c => ∃ s, Refines c s ∧ s.capacity = capacity)
    (Q := fun c => keysListed c ≤ c.size ∧ c.size ≤ capacity)]
  · rintro c call ⟨s, h, hs⟩
    obtain ⟨c', hcall, h'⟩ := cacheCall_refines c s call h
    exact ⟨c', _, hcall, _, h', (recencyCall_capacity s call).trans hs⟩
  · rintro past c call c' answer ⟨s, h, hs⟩ ⟨hb, -⟩ hcall
    obtain ⟨c₂, hcall₂, h₂⟩ := cacheCall_refines c s call h
    obtain ⟨rfl, -⟩ := Prod.mk.inj (Except.ok.inj (hcall.symm.trans hcall₂))
    rw [← bounded_step h hb hcall]
    exact and_iff_left (hroom ⟨_, h₂, (recencyCall_capacity s call).trans hs⟩)
  · exact ⟨_, refines_new hcap, rfl⟩
  · exact ⟨Nat.le_refl _, Nat.zero_le _⟩

/-- An entry whose query has no `FROM` makes room for one that has. -/
theorem keysListed_bounded_iff_spared : ∃ c answers,
    Actions.runAll cacheCall (LRUCache.new 1)
      [.put (Bytes.lit "select 1") ⟨[], []⟩, .put (Bytes.lit "select * from a") ⟨[], []⟩,
        .get (Bytes.lit "select 1"), .invalidateTable (Bytes.lit "a")] = .ok (c, answers) ∧
      keysListed c ≤ c.size ∧ c.size ≤ 1 := by
  refine (keysListed_bounded_iff (by decide : 1 ≤ 1) _).mpr ?_ _ List.prefix_rfl
  refine ⟨by decide +kernel, fun c₁ r₁ h₁ => ?_⟩
  obtain rfl := congrArg Prod.fst (Except.ok.inj h₁)
  refine ⟨by decide +kernel, fun c₂ r₂ h₂ => ?_⟩
  exact ⟨trivial, fun c₃ r₃ h₃ => ⟨trivial, fun c₄ r₄ h₄ => trivial⟩⟩

/-- A cache of one entry: the second query takes the place of the first, whose
key stays on the list. -/
theorem keysListed_evicted : ∃ c answers,
    Actions.runAll cacheCall (LRUCache.new 1)
      [.put (Bytes.lit "select * from a") ⟨[], []⟩,
        .put (Bytes.lit "select x from a") ⟨[], []⟩] = .ok (c, answers) ∧
      c.size = 1 ∧ keysListed c = 2 :=
  ⟨_, _, rfl, by decide +kernel, by decide +kernel⟩

end FlexQL.Proofs
