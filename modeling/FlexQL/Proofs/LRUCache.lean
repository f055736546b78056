import FlexQL.Spec.LRUCache

/-!
# The query cache is a bounded recency list

`Synced` is what holds between the three containers: the map has the
iterators of just the nodes of the list, and a node whose query is taken to
read a table is listed for the table. With it every call returns, and does to
the list what the recency list does.
-/

namespace FlexQL.Proofs

open Lib FlexQL.Ref FlexQL.Spec

/-- What the three containers say about each other. -/
structure Synced (c : LRUCache) : Prop where
  ids : (c.lruList.map (·.id)).Nodup
  fresh : ∀ n ∈ c.lruList, n.id < c.nextId
  keys : (c.lruList.map (·.key)).Nodup
  map : ∀ key id, c.cacheMap.lookup key = some id ↔ ∃ n ∈ c.lruList, n.key = key ∧ n.id = id
  listed : ∀ n ∈ c.lruList, ∀ table, LRUCache.extractTable n.key = some table →
    ∃ keys, c.tableEntries.lookup table = some keys ∧ n.key ∈ keys
  tables : ∀ table keys, c.tableEntries.lookup table = some keys →
    ∀ key ∈ keys, LRUCache.extractTable key = some table

/-- The list without the numbers of its nodes. -/
def resultsOf (c : LRUCache) : List (Bytes × CachedResult) :=
  c.lruList.map fun n => (n.key, n.result)

structure Refines (c : LRUCache) (s : Results) : Prop where
  synced : Synced c
  entries : resultsOf c = s.entries
  capacity : c.capacity = s.capacity
  room : 1 ≤ s.capacity
  faithful : s.Faithful

theorem refines_new {capacity : Nat} (h : 1 ≤ capacity) :
    Refines (LRUCache.new capacity) (Recency.empty capacity) := by
  refine ⟨⟨List.nodup_nil, ?_, List.nodup_nil, ?_, ?_, ?_⟩, rfl, rfl, h,
    Recency.faithful_empty capacity⟩
  all_goals simp [LRUCache.new]

variable {c c' : LRUCache} {s : Results} {key : Bytes} {id : Nat} {n : LRUNode}

/-! ## Nodes and keys -/

theorem Synced.key_iff (h : Synced c) {a b : LRUNode} (ha : a ∈ c.lruList) (hb : b ∈ c.lruList) :
    a.id = b.id ↔ a.key = b.key :=
  ⟨fun hi => by rw [List.inj_on_of_nodup_map h.ids ha hb hi],
    fun hk => by rw [List.inj_on_of_nodup_map h.keys ha hb hk]⟩

/-- Taking out a node by its number is taking out its key. -/
theorem Synced.filter_id (h : Synced c) (hn : n ∈ c.lruList) :
    c.lruList.filter (·.id ≠ n.id) = c.lruList.filter (·.key ≠ n.key) := by
  refine List.filter_congr fun a ha => ?_
  rw [decide_eq_decide, ne_eq, h.key_iff ha hn]

theorem resultsOf_filter (p : Bytes → Bool) :
    (c.lruList.filter fun n => p n.key).map (fun n => (n.key, n.result)) =
      (resultsOf c).filter fun e => p e.1 := by
  rw [resultsOf, List.filter_map]
  rfl

theorem keys_resultsOf : (resultsOf c).map (·.1) = c.lruList.map (·.key) := by
  rw [resultsOf, List.map_map]
  rfl

theorem Synced.lookup_none (h : Synced c) (hk : c.cacheMap.lookup key = none) :
    ∀ n ∈ c.lruList, n.key ≠ key := by
  intro n hn hkey
  rw [(h.map key n.id).mpr ⟨n, hn, hkey, rfl⟩] at hk
  exact absurd hk (by simp)

theorem Synced.find_none (h : Synced c) (hk : c.cacheMap.lookup key = none) :
    Recency.find (resultsOf c) key = none := by
  refine Recency.find_eq_none.mpr fun hmem => ?_
  rw [keys_resultsOf] at hmem
  obtain ⟨n, hn, hkey⟩ := List.mem_map.mp hmem
  exact h.lookup_none hk n hn hkey

theorem Synced.find_some (h : Synced c) (hn : n ∈ c.lruList) :
    Recency.find (resultsOf c) n.key = some n.result := by
  have hnd : ((resultsOf c).map (·.1)).Nodup := by
    rw [keys_resultsOf]
    exact h.keys
  have hmem : (n.key, n.result) ∈ resultsOf c := List.mem_map_of_mem hn
  exact Recency.find_eq_some hnd hmem

/-- As many keys in the map as nodes in the list. -/
theorem Synced.card (h : Synced c) : c.cacheMap.keys.card = c.lruList.length := by
  have hkeys : c.cacheMap.keys = (c.lruList.map (·.key)).toFinset := by
    ext key
    rw [Finmap.mem_keys, Finmap.mem_iff, List.mem_toFinset, List.mem_map]
    constructor
    · rintro ⟨id, hid⟩
      obtain ⟨n, hn, hkey, -⟩ := (h.map key id).mp hid
      exact ⟨n, hn, hkey⟩
    · rintro ⟨n, hn, hkey⟩
      exact ⟨n.id, (h.map key n.id).mpr ⟨n, hn, hkey, rfl⟩⟩
  rw [hkeys, List.toFinset_card_of_nodup h.keys, List.length_map]

/-! ## Moving a node to the front -/

theorem perm_front {l : List LRUNode} (hids : (l.map (·.id)).Nodup) (hn : n ∈ l) :
    (n :: l.filter (·.id ≠ n.id)).Perm l := by
  induction l with
  | nil => exact absurd hn (by simp)
  | cons a l ih =>
      rw [List.map_cons, List.nodup_cons] at hids
      rcases List.mem_cons.mp hn with rfl | hn
      · have hrest : ∀ b ∈ l, b.id ≠ n.id := fun b hb h =>
          hids.1 (h ▸ List.mem_map_of_mem hb)
        rw [List.filter_cons_of_neg (by simp), List.filter_eq_self.mpr (by simpa using hrest)]
      · have ha : a.id ≠ n.id := fun h => hids.1 (h ▸ List.mem_map_of_mem hn)
        rw [List.filter_cons_of_pos (by simpa using ha)]
        exact (List.Perm.swap a n _).trans ((ih hids.2 hn).cons a)

/-- The containers agree on a list with the same nodes, results apart. -/
theorem Synced.perm (h : Synced c) {l : List LRUNode}
    (hl : (l.map fun n => (n.id, n.key)).Perm (c.lruList.map fun n => (n.id, n.key))) :
    Synced { c with lruList := l } := by
  have hmem : ∀ n ∈ l, ∃ n' ∈ c.lruList, n'.id = n.id ∧ n'.key = n.key := by
    intro n hn
    have := hl.mem_iff.mp (List.mem_map_of_mem (f := fun n : LRUNode => (n.id, n.key)) hn)
    obtain ⟨n', hn', he⟩ := List.mem_map.mp this
    exact ⟨n', hn', (Prod.mk.inj he).1, (Prod.mk.inj he).2⟩
  have hmem' : ∀ n ∈ c.lruList, ∃ n' ∈ l, n'.id = n.id ∧ n'.key = n.key := by
    intro n hn
    have := hl.mem_iff.mpr (List.mem_map_of_mem (f := fun n : LRUNode => (n.id, n.key)) hn)
    obtain ⟨n', hn', he⟩ := List.mem_map.mp this
    exact ⟨n', hn', (Prod.mk.inj he).1, (Prod.mk.inj he).2⟩
  have hids := (hl.map Prod.fst).nodup_iff
  have hkeys := (hl.map Prod.snd).nodup_iff
  simp only [List.map_map, Function.comp_def] at hids hkeys
  refine ⟨hids.mpr h.ids, fun n hn => ?_, hkeys.mpr h.keys, fun key id => ?_,
    fun n hn table ht => ?_, h.tables⟩
  · obtain ⟨n', hn', hi, -⟩ := hmem n hn
    rw [← hi]
    exact h.fresh n' hn'
  · rw [h.map]
    constructor
    · rintro ⟨n, hn, rfl, rfl⟩
      obtain ⟨n', hn', hi, hk⟩ := hmem' n hn
      exact ⟨n', hn', hk, hi⟩
    · rintro ⟨n, hn, rfl, rfl⟩
      obtain ⟨n', hn', hi, hk⟩ := hmem n hn
      exact ⟨n', hn', hk, hi⟩
  · obtain ⟨n', hn', -, hk⟩ := hmem n hn
    rw [← hk] at ht ⊢
    exact h.listed n' hn' table ht

theorem Synced.counted (h : Synced c) (hits misses : Nat) :
    Synced { c with hits := hits, misses := misses } :=
  ⟨h.ids, h.fresh, h.keys, h.map, h.listed, h.tables⟩

theorem touch_ok (h : Synced c) (hn : n ∈ c.lruList) (update : CachedResult → CachedResult) :
    ∃ c', c.touch n.id update = .ok (c', update n.result) ∧ Synced c' ∧
      resultsOf c' = (n.key, update n.result) :: (resultsOf c).filter (·.1 ≠ n.key) ∧
      c'.capacity = c.capacity ∧ c'.hits = c.hits ∧ c'.misses = c.misses := by
  have hfind : c.lruList.find? (·.id = n.id) = some n := by
    cases hf : c.lruList.find? (·.id = n.id) with
    | none => exact absurd (List.find?_eq_none.mp hf n hn) (by simp)
    | some m =>
        have hm := List.mem_of_find?_eq_some hf
        have hid : m.id = n.id := by simpa using List.find?_some hf
        rw [List.inj_on_of_nodup_map h.ids hm hn hid]
  let n' : LRUNode := { n with result := update n.result }
  refine ⟨{ c with lruList := n' :: c.lruList.filter (·.id ≠ n.id) }, ?_, ?_, ?_, rfl, rfl, rfl⟩
  · rw [LRUCache.touch, hfind]
  · have hp := (perm_front h.ids hn).map fun m : LRUNode => (m.id, m.key)
    rw [List.map_cons] at hp
    exact h.perm hp
  · rw [h.filter_id hn]
    exact congrArg _ (resultsOf_filter fun key => decide (key ≠ n.key))

/-- A new node at the front. -/
theorem synced_push {result : CachedResult} (h : Synced c) (hout : ∀ n ∈ c.lruList, n.key ≠ key) :
    Synced { c with
      lruList := ⟨c.nextId, key, result⟩ :: c.lruList
      cacheMap := c.cacheMap.insert key c.nextId
      nextId := c.nextId + 1
      tableEntries := match LRUCache.extractTable key with
        | none => c.tableEntries
        | some table => c.tableEntries.insert table
            ((c.tableEntries.lookup table).getD [] ++ [key]) } := by
  refine ⟨?_, ?_, ?_, fun k id => ?_, ?_, ?_⟩
  · refine List.nodup_cons.mpr ⟨fun hmem => ?_, h.ids⟩
    obtain ⟨n, hn, hid⟩ := List.mem_map.mp hmem
    exact absurd hid (Nat.ne_of_lt (h.fresh n hn))
  · intro n hn
    rcases List.mem_cons.mp hn with rfl | hn
    · exact Nat.lt_succ_self _
    · exact Nat.lt_succ_of_lt (h.fresh n hn)
  · refine List.nodup_cons.mpr ⟨fun hmem => ?_, h.keys⟩
    obtain ⟨n, hn, hkey⟩ := List.mem_map.mp hmem
    exact hout n hn hkey
  · by_cases hk : k = key
    · subst hk
      rw [Finmap.lookup_insert]
      constructor
      · intro hid
        exact ⟨_, List.mem_cons_self, rfl, Option.some.inj hid⟩
      · rintro ⟨n, hn, hkey, rfl⟩
        rcases List.mem_cons.mp hn with rfl | hn
        · rfl
        · exact absurd hkey (hout n hn)
    · rw [Finmap.lookup_insert_of_ne _ hk, h.map]
      constructor
      · rintro ⟨n, hn, hkey, hid⟩
        exact ⟨n, List.mem_cons_of_mem _ hn, hkey, hid⟩
      · rintro ⟨n, hn, hkey, hid⟩
        rcases List.mem_cons.mp hn with rfl | hn
        · exact absurd hkey.symm hk
        · exact ⟨n, hn, hkey, hid⟩
  · intro n hn table ht
    rcases List.mem_cons.mp hn with rfl | hn
    · dsimp only at ht ⊢
      rw [ht]
      exact ⟨_, Finmap.lookup_insert _, by simp⟩
    · obtain ⟨keys, hkeys, hmem⟩ := h.listed n hn table ht
      dsimp only
      split
      · exact ⟨keys, hkeys, hmem⟩
      · next table' _ =>
          by_cases heq : table = table'
          · subst heq
            exact ⟨_, Finmap.lookup_insert _, by simp [hkeys, hmem]⟩
          · exact ⟨keys, by rw [Finmap.lookup_insert_of_ne _ heq, hkeys], hmem⟩
  · intro table keys hkeys k hk
    dsimp only at hkeys
    split at hkeys
    · exact h.tables table keys hkeys k hk
    · next table' ht =>
        by_cases heq : table = table'
        · subst heq
          rw [Finmap.lookup_insert] at hkeys
          rw [← Option.some.inj hkeys] at hk
          rcases List.mem_append.mp hk with hk | hk
          · cases hold : c.tableEntries.lookup table with
            | none => simp [hold] at hk
            | some old => exact h.tables table old hold k (by simpa [hold] using hk)
          · rw [List.mem_singleton.mp hk]
            exact ht
        · rw [Finmap.lookup_insert_of_ne _ heq] at hkeys
          exact h.tables table keys hkeys k hk

/-- The nodes of a key out of the list, and the key out of the map. -/
theorem synced_erase (h : Synced c) (key : Bytes) :
    Synced { c with
      lruList := c.lruList.filter (·.key ≠ key)
      cacheMap := c.cacheMap.erase key } := by
  have hsub : (c.lruList.filter (·.key ≠ key)).Sublist c.lruList := List.filter_sublist
  refine ⟨h.ids.sublist (hsub.map _), fun n hn => h.fresh n (hsub.mem hn),
    h.keys.sublist (hsub.map _), fun k id => ?_, fun n hn => h.listed n (hsub.mem hn), h.tables⟩
  by_cases hk : k = key
  · subst hk
    rw [Finmap.lookup_erase]
    refine ⟨fun h => absurd h (by simp), ?_⟩
    rintro ⟨n, hn, hkey, -⟩
    exact absurd hkey (by simpa using (List.mem_filter.mp hn).2)
  · rw [Finmap.lookup_erase_ne hk, h.map]
    constructor
    · rintro ⟨n, hn, rfl, hid⟩
      exact ⟨n, List.mem_filter.mpr ⟨hn, by simpa using hk⟩, rfl, hid⟩
    · rintro ⟨n, hn, hkey, hid⟩
      exact ⟨n, hsub.mem hn, hkey, hid⟩

/-! ## The calls -/

theorem get_refines (h : Refines c s) (query : Bytes) :
    ∃ c', c.get query = .ok (c', (s.get (LRUCache.normalize query)).2) ∧
      Refines c' (s.get (LRUCache.normalize query)).1 := by
  have hf := h.faithful.get (LRUCache.normalize query)
  rw [LRUCache.get, Recency.get] at *
  cases hk : c.cacheMap.lookup (LRUCache.normalize query) with
  | none =>
      have hl : s.lookup (LRUCache.normalize query) = none := by
        rw [Recency.lookup, ← h.entries]
        exact h.synced.find_none hk
      rw [hl]
      exact ⟨_, rfl, h.synced.counted _ _, h.entries, h.capacity, h.room, h.faithful⟩
  | some id =>
      obtain ⟨n, hn, hkey, rfl⟩ := (h.synced.map _ _).mp hk
      have hl : s.lookup (LRUCache.normalize query) = some n.result := by
        rw [Recency.lookup, ← h.entries, ← hkey]
        exact h.synced.find_some hn
      rw [hl] at hf ⊢
      obtain ⟨c₁, htouch, hs, he, hcap, -⟩ := touch_ok h.synced hn fun r => r
      refine ⟨{ c₁ with hits := c₁.hits + 1 }, ?_, ?_, ?_, hcap.trans h.capacity, h.room, hf⟩
      · dsimp only
        rw [htouch]
        rfl
      · exact hs.counted _ _
      · change resultsOf c₁ = (LRUCache.normalize query, n.result) :: s.entries.filter _
        rw [← h.entries, ← hkey]
        exact he

theorem evict_refines (h : Refines c s) :
    ∃ c', c.evict = .ok c' ∧ Refines c' s.evict ∧ c'.nextId = c.nextId := by
  have hlen : c.lruList.length = s.entries.length := by
    rw [← h.entries, resultsOf, List.length_map]
  obtain ⟨hf, -⟩ := h.faithful.evict h.room
  have hroom : 1 ≤ s.evict.capacity := by rw [Recency.capacity_evict]; exact h.room
  rw [LRUCache.evict, h.synced.card, hlen, h.capacity]
  by_cases hfull : s.capacity ≤ s.entries.length
  · rw [if_pos hfull]
    cases hlast : c.lruList.getLast? with
    | none =>
        rw [List.getLast?_eq_none_iff.mp hlast, List.length_nil] at hlen
        have := h.room
        omega
    | some back =>
        obtain ⟨init, hinit⟩ : ∃ init, c.lruList = init ++ [back] :=
          ⟨_, (List.dropLast_append_getLast? back hlast).symm⟩
        have hdrop : c.lruList.dropLast = init := by rw [hinit, List.dropLast_concat]
        have hkeys : ∀ n ∈ init, n.key ≠ back.key := by
          have hnd := h.synced.keys
          rw [hinit, List.map_append, List.nodup_append] at hnd
          exact fun n hn => hnd.2.2 _ (List.mem_map_of_mem hn) _ (by simp)
        have hfilter : c.lruList.dropLast = c.lruList.filter (·.key ≠ back.key) := by
          rw [hdrop, hinit, List.filter_append, List.filter_eq_self.mpr (by simpa using hkeys)]
          simp
        rw [hfilter]
        refine ⟨_, rfl, ⟨?_, ?_, ?_, hroom, hf⟩, rfl⟩
        · have hs := synced_erase h.synced back.key
          rwa [h.capacity] at hs
        · rw [Recency.evict, if_pos hfull, ← h.entries]
          simp only [resultsOf, ← hfilter, List.map_dropLast]
        · rw [Recency.capacity_evict]
  · rw [if_neg hfull, Recency.evict, if_neg hfull]
    exact ⟨c, rfl, h, rfl⟩

theorem put_refines (h : Refines c s) (query : Bytes) (result : CachedResult) :
    ∃ c', c.put query result = .ok c' ∧ Refines c' (s.put (LRUCache.normalize query) result) := by
  have hf := h.faithful.put h.room (LRUCache.normalize query) result
  rw [LRUCache.put, Recency.put] at *
  generalize LRUCache.normalize query = key at *
  dsimp only
  cases hk : c.cacheMap.lookup key with
  | some id =>
      obtain ⟨n, hn, rfl, rfl⟩ := (h.synced.map _ _).mp hk
      have hl : s.lookup n.key = some n.result := by
        rw [Recency.lookup, ← h.entries]
        exact h.synced.find_some hn
      obtain ⟨c₁, htouch, hs, he, hcap, -⟩ := touch_ok h.synced hn fun _ => result
      rw [hl, Option.isSome_some, if_pos rfl] at hf ⊢
      refine ⟨c₁, ?_, hs, ?_, hcap.trans h.capacity, h.room, hf⟩
      · dsimp only
        rw [htouch]
        rfl
      · rw [he, h.entries]
        rfl
  | none =>
      have hl : s.lookup key = none := by
        rw [Recency.lookup, ← h.entries]
        exact h.synced.find_none hk
      obtain ⟨c₁, hev, h₁, -⟩ := evict_refines h
      have hout : ∀ n ∈ c₁.lruList, n.key ≠ key := by
        intro n hn hkey
        have hfind := Recency.find_evict_none hl
        rw [← h₁.entries, ← hkey, h₁.synced.find_some hn] at hfind
        exact absurd hfind (by simp)
      rw [hl, Option.isSome_none, if_neg (by simp)] at hf ⊢
      dsimp only
      rw [hev, Outcome.bind_ok]
      refine ⟨_, rfl, ?_, ?_, h₁.capacity, ?_, hf⟩
      · exact synced_push h₁.synced hout
      · change (key, result) :: resultsOf c₁ = _
        rw [h₁.entries]
      · change 1 ≤ s.evict.capacity
        exact h₁.room

/-- The loop over the keys of a table takes out just those keys. -/
theorem invalidateKeys_ok {keys : List Bytes} (h : Synced c) :
    ∃ c', c.invalidateKeys keys = .ok c' ∧ Synced c' ∧
      resultsOf c' = (resultsOf c).filter (fun e => decide (e.1 ∉ keys)) ∧
      c'.capacity = c.capacity ∧ c'.tableEntries = c.tableEntries := by
  induction keys generalizing c with
  | nil => exact ⟨c, rfl, h, by simp, rfl, rfl⟩
  | cons key keys ih =>
      rw [LRUCache.invalidateKeys]
      cases hk : c.cacheMap.lookup key with
      | none =>
          obtain ⟨c', hrun, hs, he, hrest⟩ := ih h
          refine ⟨c', hrun, hs, ?_, hrest⟩
          have hnone := Recency.find_eq_none.mp (h.find_none hk)
          rw [he]
          refine List.filter_congr fun e hmem => ?_
          have hne : e.1 ≠ key := fun h => hnone (h ▸ List.mem_map_of_mem hmem)
          simp [hne]
      | some id =>
          obtain ⟨n, hn, rfl, rfl⟩ := (h.map _ _).mp hk
          have hany : c.lruList.any (·.id = n.id) = true :=
            List.any_eq_true.mpr ⟨n, hn, by simp⟩
          dsimp only
          rw [if_pos hany, h.filter_id hn]
          obtain ⟨c', hrun, hs, he, hrest⟩ := ih (synced_erase h n.key)
          refine ⟨c', hrun, hs, ?_, hrest⟩
          rw [he]
          have hone := resultsOf_filter (c := c) fun key => decide (key ≠ n.key)
          change ((c.lruList.filter _).map _).filter _ = _
          rw [hone, List.filter_filter]
          refine List.filter_congr fun e _ => ?_
          by_cases hek : e.1 = n.key <;> simp [hek]

theorem not_mem_of_resultsOf {keys : List Bytes} {l : List (Bytes × CachedResult)}
    (h : resultsOf c = l.filter (fun e => decide (e.1 ∉ keys))) (hn : n ∈ c.lruList) :
    n.key ∉ keys := by
  have hmem : (n.key, n.result) ∈ resultsOf c := List.mem_map_of_mem hn
  rw [h] at hmem
  simpa using (List.mem_filter.mp hmem).2

theorem invalidateTable_refines (h : Refines c s) (tableName : Bytes) :
    ∃ c', c.invalidateTable tableName = .ok c' ∧
      Refines c' (s.removeWhere (takenToRead tableName)) := by
  have hf := h.faithful.removeWhere (takenToRead tableName)
  rw [LRUCache.invalidateTable]
  cases hk : c.tableEntries.lookup (Bytes.toUpper tableName) with
  | none =>
      refine ⟨c, rfl, h.synced, ?_, h.capacity, h.room, hf⟩
      have hnone : ∀ e ∈ resultsOf c, takenToRead tableName e.1 = false := by
        intro e he
        obtain ⟨n, hn, rfl⟩ := List.mem_map.mp he
        rw [takenToRead, decide_eq_false_iff_not]
        intro ht
        obtain ⟨keys, hkeys, -⟩ := h.synced.listed n hn _ ht
        rw [hk] at hkeys
        exact absurd hkeys (by simp)
      rw [Recency.removeWhere, ← h.entries]
      exact (List.filter_eq_self.mpr fun e he => by simp [hnone e he]).symm
  | some keys =>
      obtain ⟨c₁, hrun, hs, he, hcap, hte⟩ :
          ∃ c', c.invalidateKeys keys = .ok c' ∧ _ := invalidateKeys_ok h.synced
      dsimp only
      rw [hrun, Outcome.bind_ok]
      refine ⟨_, rfl, ⟨hs.ids, hs.fresh, hs.keys, hs.map, ?_, ?_⟩, ?_, ?_, h.room, hf⟩
      · intro n hn table ht
        obtain ⟨keys', hkeys', hmem⟩ := hs.listed n hn table ht
        by_cases heq : table = Bytes.toUpper tableName
        · subst heq
          rw [hte, hk] at hkeys'
          exact absurd (Option.some.inj hkeys' ▸ hmem) (not_mem_of_resultsOf he hn)
        · exact ⟨keys', by rw [Finmap.lookup_erase_ne heq, hkeys'], hmem⟩
      · intro table keys' hkeys'
        by_cases heq : table = Bytes.toUpper tableName
        · subst heq
          rw [Finmap.lookup_erase] at hkeys'
          exact absurd hkeys' (by simp)
        · rw [Finmap.lookup_erase_ne heq] at hkeys'
          exact hs.tables table keys' hkeys'
      · change resultsOf c₁ = _
        rw [he, Recency.removeWhere, ← h.entries]
        refine List.filter_congr fun e hmem => ?_
        obtain ⟨n, hn, rfl⟩ := List.mem_map.mp hmem
        -- a key is listed for a table just when it is taken to read it
        have hiff : n.key ∈ keys ↔
            LRUCache.extractTable n.key = some (Bytes.toUpper tableName) := by
          refine ⟨h.synced.tables _ keys hk n.key, fun ht => ?_⟩
          obtain ⟨keys', hkeys', hmem⟩ := h.synced.listed n hn _ ht
          rw [hk] at hkeys'
          exact Option.some.inj hkeys' ▸ hmem
        simp [takenToRead, hiff]
      · exact hcap.trans h.capacity

theorem clear_refines (h : Refines c s) : Refines c.clear (s.removeWhere fun _ => true) := by
  refine ⟨⟨List.nodup_nil, ?_, List.nodup_nil, ?_, ?_, ?_⟩, ?_, h.capacity, h.room,
    h.faithful.removeWhere _⟩
  all_goals simp [LRUCache.clear, resultsOf, Recency.removeWhere]

theorem cacheCall_refines (c : LRUCache) (s : Results) (call : CacheCall) (h : Refines c s) :
    ∃ c', cacheCall c call = .ok (c', (recencyCall s call).2) ∧
      Refines c' (recencyCall s call).1 := by
  cases call with
  | get query =>
      obtain ⟨c', hget, h'⟩ := get_refines h query
      exact ⟨c', by rw [cacheCall, hget]; rfl, h'⟩
  | put query result =>
      obtain ⟨c', hput, h'⟩ := put_refines h query result
      exact ⟨c', by rw [cacheCall, hput]; rfl, h'⟩
  | invalidateTable tableName =>
      obtain ⟨c', hinv, h'⟩ := invalidateTable_refines h tableName
      exact ⟨c', by rw [cacheCall, hinv]; rfl, h'⟩
  | clear => exact ⟨c.clear, rfl, clear_refines h⟩

/-! ## The counters -/

theorem touch_counters {update : CachedResult → CachedResult} {result : CachedResult}
    (h : c.touch id update = .ok (c', result)) : c'.hits = c.hits ∧ c'.misses = c.misses := by
  rw [LRUCache.touch] at h
  split at h
  · exact absurd h (by simp)
  · obtain ⟨rfl, -⟩ := Prod.mk.inj (Except.ok.inj h)
    exact ⟨rfl, rfl⟩

theorem evict_counters (h : c.evict = .ok c') : c'.hits = c.hits ∧ c'.misses = c.misses := by
  rw [LRUCache.evict] at h
  split at h
  · split at h
    · exact absurd h (by simp)
    · obtain rfl := Except.ok.inj h
      exact ⟨rfl, rfl⟩
  · obtain rfl := Except.ok.inj h
    exact ⟨rfl, rfl⟩

theorem get_counters {query : Bytes} {answer : Option CachedResult}
    (h : c.get query = .ok (c', answer)) :
    c'.hits = c.hits + (if isHit (some answer) then 1 else 0) ∧
      c'.misses = c.misses + if isMiss (some answer) then 1 else 0 := by
  rw [LRUCache.get] at h
  split at h
  · obtain ⟨rfl, rfl⟩ := Prod.mk.inj (Except.ok.inj h)
    exact ⟨rfl, rfl⟩
  · obtain ⟨⟨c₁, result⟩, ht, hk⟩ := Outcome.bind_eq_ok.mp h
    obtain ⟨rfl, rfl⟩ := Prod.mk.inj (Except.ok.inj hk)
    obtain ⟨hh, hm⟩ := touch_counters ht
    exact ⟨congrArg (· + 1) hh, hm⟩

theorem put_counters {query : Bytes} {result : CachedResult} (h : c.put query result = .ok c') :
    c'.hits = c.hits ∧ c'.misses = c.misses := by
  rw [LRUCache.put] at h
  dsimp only at h
  split at h
  · obtain ⟨⟨c₁, _⟩, ht, hk⟩ := Outcome.bind_eq_ok.mp h
    obtain rfl := Except.ok.inj hk
    exact touch_counters ht
  · obtain ⟨c₁, he, hk⟩ := Outcome.bind_eq_ok.mp h
    obtain rfl := Except.ok.inj hk
    obtain ⟨hh, hm⟩ := evict_counters he
    exact ⟨hh, hm⟩

theorem invalidateKeys_counters {keys : List Bytes} (h : c.invalidateKeys keys = .ok c') :
    c'.hits = c.hits ∧ c'.misses = c.misses := by
  induction keys generalizing c with
  | nil =>
      obtain rfl := Except.ok.inj h
      exact ⟨rfl, rfl⟩
  | cons key keys ih =>
      rw [LRUCache.invalidateKeys] at h
      split at h
      · exact ih h
      · split at h
        · obtain ⟨hh, hm⟩ := ih h
          exact ⟨hh, hm⟩
        · exact absurd h (by simp)

theorem invalidateTable_counters {tableName : Bytes} (h : c.invalidateTable tableName = .ok c') :
    c'.hits = c.hits ∧ c'.misses = c.misses := by
  rw [LRUCache.invalidateTable] at h
  split at h
  · obtain rfl := Except.ok.inj h
    exact ⟨rfl, rfl⟩
  · obtain ⟨c₁, hr, hk⟩ := Outcome.bind_eq_ok.mp h
    obtain rfl := Except.ok.inj hk
    obtain ⟨hh, hm⟩ := invalidateKeys_counters hr
    exact ⟨hh, hm⟩

theorem cacheCall_counters {call : CacheCall} {answer : Option (Option CachedResult)}
    (h : cacheCall c call = .ok (c', answer)) :
    c'.hits = c.hits + (if isHit answer then 1 else 0) ∧
      c'.misses = c.misses + if isMiss answer then 1 else 0 := by
  cases call with
  | get query =>
      obtain ⟨⟨c₁, r⟩, hr, hk⟩ := Outcome.bind_eq_ok.mp h
      obtain ⟨rfl, rfl⟩ := Prod.mk.inj (Except.ok.inj hk)
      exact get_counters hr
  | put query result =>
      obtain ⟨c₁, hr, hk⟩ := Outcome.bind_eq_ok.mp h
      obtain ⟨rfl, rfl⟩ := Prod.mk.inj (Except.ok.inj hk)
      exact put_counters hr
  | invalidateTable tableName =>
      obtain ⟨c₁, hr, hk⟩ := Outcome.bind_eq_ok.mp h
      obtain ⟨rfl, rfl⟩ := Prod.mk.inj (Except.ok.inj hk)
      exact invalidateTable_counters hr
  | clear =>
      obtain ⟨rfl, rfl⟩ := Prod.mk.inj (Except.ok.inj h)
      exact ⟨rfl, rfl⟩

/-! ## Runs -/

theorem recencyCall_capacity (s : Results) (call : CacheCall) :
    (recencyCall s call).1.capacity = s.capacity := by
  cases call with
  | get query =>
      simp only [recencyCall, Recency.get]
      split <;> rfl
  | put query result =>
      simp only [recencyCall, Recency.put]
      split
      · rfl
      · exact Recency.capacity_evict s
  | invalidateTable tableName => rfl
  | clear => rfl

theorem put_full {query : Bytes} {result : CachedResult} (h : Refines c s)
    (hnew : LRUCache.normalize query ∉ c.cacheMap) (hfull : c.lruList.length = s.capacity) :
    ∃ c', c.put query result = .ok c' ∧
      c'.lruList.map (·.key) = LRUCache.normalize query :: (c.lruList.map (·.key)).dropLast := by
  obtain ⟨c', hput, h'⟩ := put_refines h query result
  refine ⟨c', hput, ?_⟩
  have hnone : s.lookup (LRUCache.normalize query) = none := by
    rw [Recency.lookup, ← h.entries]
    exact h.synced.find_none (Finmap.lookup_eq_none.mpr hnew)
  have hlen : s.capacity ≤ s.entries.length := by
    rw [← h.entries, resultsOf, List.length_map]
    exact Nat.le_of_eq hfull.symm
  have hentries : s.evict.entries = s.entries.dropLast := by rw [Recency.evict, if_pos hlen]
  rw [← keys_resultsOf, ← keys_resultsOf, h'.entries, Recency.put, hnone,
    if_neg (by simp), List.map_cons, hentries, ← h.entries, List.map_dropLast]

/-- The cache is a bounded recency list, after any calls. -/
theorem lruCache_refines_recency {capacity : Nat} (hcap : 1 ≤ capacity)
    (calls : List CacheCall) :
    let ideal := Actions.runPure recencyCall (Recency.empty capacity) calls
    ∃ c answers, Actions.runAll cacheCall (LRUCache.new capacity) calls = .ok (c, answers) ∧
      answers = ideal.2 ∧
      (c.lruList.map fun n => (n.key, n.result)) = ideal.1.entries ∧
      (c.lruList.map (·.key)).Nodup ∧
      (∀ key, key ∈ c.cacheMap ↔ key ∈ c.lruList.map (·.key)) ∧
      c.lruList.length ≤ capacity ∧
      c.lruList.Pairwise (fun a b => Recency.lastUse ideal.1.history b.key <
        Recency.lastUse ideal.1.history a.key) ∧
      (∀ query, ∃ c', c.get query =
        .ok (c', Recency.current ideal.1.history (LRUCache.normalize query))) ∧
      (∀ query result, LRUCache.normalize query ∉ c.cacheMap → c.lruList.length = capacity →
        ∃ c', c.put query result = .ok c' ∧ c'.lruList.map (·.key) =
          LRUCache.normalize query :: (c.lruList.map (·.key)).dropLast) ∧
      c.hits = answers.countP isHit ∧ c.misses = answers.countP isMiss := by
  intro ideal
  obtain ⟨c, hrun, h⟩ := Actions.runAll_simulates cacheCall_refines (refines_new hcap) calls
  have hcapacity : ideal.1.capacity = capacity :=
    Actions.runPure_keeps (q := Recency.capacity) recencyCall_capacity _ _
  refine ⟨c, ideal.2, hrun, rfl, h.entries, h.synced.keys, fun key => ?_, ?_, ?_, fun query => ?_,
    fun query result hnew hfull => ?_, ?_, ?_⟩
  · rw [Finmap.mem_iff, List.mem_map]
    constructor
    · rintro ⟨id, hid⟩
      obtain ⟨n, hn, hkey, -⟩ := (h.synced.map key id).mp hid
      exact ⟨n, hn, hkey⟩
    · rintro ⟨n, hn, hkey⟩
      exact ⟨n.id, (h.synced.map key n.id).mpr ⟨n, hn, hkey, rfl⟩⟩
  · have hb := h.faithful.bound
    rwa [← h.entries, resultsOf, List.length_map, hcapacity] at hb
  · have hr := h.faithful.recent
    rw [← h.entries, resultsOf, List.pairwise_map] at hr
    exact hr
  · obtain ⟨c', hget, -⟩ := get_refines h query
    exact ⟨c', by rw [hget, Recency.get_value, h.faithful.held]⟩
  · exact put_full h hnew (hfull.trans hcapacity.symm)
  · have hits := Actions.runAll_countP (q := LRUCache.hits)
      (fun _ _ _ _ h => (cacheCall_counters h).1) hrun
    exact hits.trans (Nat.zero_add _)
  · have misses := Actions.runAll_countP (q := LRUCache.misses)
      (fun _ _ _ _ h => (cacheCall_counters h).2) hrun
    exact misses.trans (Nat.zero_add _)

/-- A cache of two results: the one not used since goes. -/
theorem lruCache_refines_recency_two :
    let calls := [CacheCall.put (Bytes.lit "A") ⟨[], []⟩, .put (Bytes.lit "B") ⟨[], []⟩,
      .get (Bytes.lit "a"), .put (Bytes.lit "C") ⟨[], []⟩]
    ∃ c answers, Actions.runAll cacheCall (LRUCache.new 2) calls = .ok (c, answers) ∧
      answers = (Actions.runPure recencyCall (Recency.empty 2) calls).2 := by
  intro calls
  obtain ⟨c, answers, hrun, hans, -⟩ := @lruCache_refines_recency 2 (by decide) calls
  exact ⟨c, answers, hrun, hans⟩

end FlexQL.Proofs
