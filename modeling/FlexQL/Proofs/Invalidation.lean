import FlexQL.Proofs.Reach
import FlexQL.Proofs.Transparency
import FlexQL.Spec.Invalidation

/-!
# What an invalidation drops

The list kept for a table may have keys that were evicted since, and keys
twice, but it never lacks one that is still in the cache. So an invalidation
drops all the entries whose texts name the table behind their first `FROM `,
and no others. A query that reads the table by another name in its text, or
only joins it, keeps its entry, and so does every query when the `INSERT`
fails half way.
-/

namespace FlexQL.Proofs

open Lib FlexQL.Ref FlexQL.Spec

/-! ## The name behind the first `FROM ` -/

section Names

variable {text key name rest : Bytes}

/-- The first occurrence has the least before it. -/
theorem afterFirst_eq_some (htext : text ≠ []) :
    LRUCache.afterFirst text key = some rest ↔
      ∃ before, key = before ++ (text ++ rest) ∧
        ∀ b r, key = b ++ (text ++ r) → before.length ≤ b.length := by
  induction key with
  | nil =>
      rw [LRUCache.afterFirst, if_neg (by simpa using htext)]
      refine ⟨nofun, fun ⟨before, hkey, _⟩ => absurd hkey.symm ?_⟩
      simp [htext]
  | cons c cs ih =>
      rw [LRUCache.afterFirst]
      split
      · next hpre =>
          obtain ⟨tail, htail⟩ := List.isPrefixOf_iff_prefix.mp hpre
          rw [← htail, List.drop_left]
          constructor
          · intro h
            obtain rfl := Option.some.inj h
            exact ⟨[], rfl, fun _ _ _ => Nat.zero_le _⟩
          · rintro ⟨before, hkey, hfirst⟩
            have hnil := List.length_eq_zero_iff.mp (Nat.le_zero.mp (hfirst [] tail rfl))
            rw [hnil, List.nil_append] at hkey
            rw [List.append_cancel_left hkey]
      · next hpre =>
          -- an occurrence does not start here, so it is one of the rest
          have hnot : ∀ b r, c :: cs = b ++ (text ++ r) → ∃ b', b = c :: b' ∧
              cs = b' ++ (text ++ r) := by
            intro b r h
            cases b with
            | nil => exact absurd (List.isPrefixOf_iff_prefix.mpr ⟨r, h.symm⟩) hpre
            | cons d b' =>
                obtain ⟨hc, hcs⟩ := List.cons.inj h
                exact ⟨b', by rw [hc], hcs⟩
          rw [ih]
          constructor
          · rintro ⟨before, hkey, hfirst⟩
            refine ⟨c :: before, by rw [hkey]; rfl, fun b r h => ?_⟩
            obtain ⟨b', rfl, h'⟩ := hnot b r h
            exact Nat.succ_le_succ (hfirst b' r h')
          · rintro ⟨before, hkey, hfirst⟩
            obtain ⟨before', rfl, h'⟩ := hnot before rest hkey
            exact ⟨before', h', fun b r h =>
              Nat.le_of_succ_le_succ (hfirst (c :: b) r (by rw [h]; rfl))⟩

theorem takeWhile_eq_iff {p : UInt8 → Bool} {l : Bytes} :
    l.takeWhile p = name ↔
      ∃ rest, l = name ++ rest ∧ (∀ c ∈ name, p c) ∧ ∀ c ∈ rest.head?, p c = false := by
  constructor
  · rintro rfl
    refine ⟨l.dropWhile p, List.takeWhile_append_dropWhile.symm,
      fun c => List.mem_takeWhile_imp, fun c hc => ?_⟩
    have := List.head?_dropWhile_not p l
    rw [Option.mem_def.mp hc] at this
    simpa using this
  · rintro ⟨rest, rfl, hname, hrest⟩
    rw [List.takeWhile_append_of_pos hname]
    cases rest with
    | nil => simp
    | cons c cs => simp [hrest c (by simp)]

theorem extractTable_eq_some :
    LRUCache.extractTable key = some name ↔ FollowsFrom key name := by
  rw [LRUCache.extractTable, Option.map_eq_some_iff]
  have hends : ∀ c, (!(Bytes.lit " ;,)").contains c) = true ↔ c ∉ nameEnds := by
    intro c
    simp [nameEnds]
  constructor
  · rintro ⟨behind, hafter, htake⟩
    obtain ⟨before, hkey, hfirst⟩ := (afterFirst_eq_some (by decide)).mp hafter
    obtain ⟨rest, rfl, hname, hrest⟩ := takeWhile_eq_iff.mp htake
    refine ⟨before, rest, hkey, hfirst, fun c hc => (hends c).mp (hname c hc), fun c hc => ?_⟩
    by_contra hnot
    exact absurd ((hends c).mpr hnot) (by rw [hrest c hc]; nofun)
  · rintro ⟨before, rest, hkey, hfirst, hname, hrest⟩
    refine ⟨name ++ rest, (afterFirst_eq_some (by decide)).mpr ⟨before, hkey, hfirst⟩,
      takeWhile_eq_iff.mpr ⟨rest, rfl, fun c hc => (hends c).mpr (hname c hc), fun c hc => ?_⟩⟩
    rw [← Bool.not_eq_true, hends, not_not]
    exact hrest c hc

instance : Decidable (FollowsFrom key name) := decidable_of_iff _ extractTable_eq_some

/-- A key that has a `FROM ` has a name behind it. -/
theorem followsFrom_of_infix (h : Bytes.lit "FROM " <:+: key) : ∃ name, FollowsFrom key name := by
  have hsome : (LRUCache.extractTable key).isSome := by
    rw [LRUCache.extractTable, Option.isSome_map]
    obtain ⟨b, r, rfl⟩ := h
    induction b with
    | nil => rfl
    | cons c b ih =>
        rw [List.cons_append, List.cons_append, LRUCache.afterFirst]
        split
        · rfl
        · exact ih
  obtain ⟨name, hname⟩ := Option.isSome_iff_exists.mp hsome
  exact ⟨name, extractTable_eq_some.mp hname⟩

end Names

/-! ## Caches -/

section Caches

variable {c c' : LRUCache} {s : Results} {key : Bytes}

/-- The keys of the map are those of the list. -/
theorem Refines.isSome_iff (h : Refines c s) :
    (c.cacheMap.lookup key).isSome ↔ ∃ r, (key, r) ∈ s.entries := by
  constructor
  · intro hkey
    obtain ⟨id, hid⟩ := Option.isSome_iff_exists.mp hkey
    obtain ⟨n, hn, rfl, -⟩ := (h.synced.map key id).mp hid
    exact ⟨n.result, h.entries ▸ List.mem_map_of_mem hn⟩
  · intro ⟨r, hr⟩
    exact h.kept hr

theorem Refines.isSome_invalidateTable {tableName : Bytes} (h : Refines c s)
    (hinv : c.invalidateTable tableName = .ok c') :
    (c'.cacheMap.lookup key).isSome ↔
      (c.cacheMap.lookup key).isSome ∧ takenToRead tableName key = false := by
  obtain ⟨c₁, hinv₁, h₁⟩ := invalidateTable_refines h tableName
  obtain rfl := Except.ok.inj (hinv.symm.trans hinv₁)
  rw [h₁.isSome_iff, h.isSome_iff]
  simp [Recency.removeWhere]

/-- A cached key with a `FROM ` is on the list of the name behind it. -/
theorem Synced.listed_from (h : Synced c) (hkey : (c.cacheMap.lookup key).isSome)
    (hfrom : Bytes.lit "FROM " <:+: key) : ∃ name keys, FollowsFrom key name ∧
      c.tableEntries.lookup name = some keys ∧ key ∈ keys := by
  obtain ⟨id, hid⟩ := Option.isSome_iff_exists.mp hkey
  obtain ⟨n, hn, rfl, -⟩ := (h.map key id).mp hid
  obtain ⟨name, hname⟩ := followsFrom_of_infix hfrom
  obtain ⟨keys, hkeys, hmem⟩ := h.listed n hn name (extractTable_eq_some.mpr hname)
  exact ⟨name, keys, hname, hkeys, hmem⟩

/-- Whatever was done with a cache, its keys are listed under the names behind
their first `FROM `, and an invalidation drops the entries of its name. -/
theorem invalidateTable_exact {capacity : Nat} (hcap : 1 ≤ capacity) (calls : List CacheCall) :
    ∃ c answers, Actions.runAll cacheCall (LRUCache.new capacity) calls = .ok (c, answers) ∧
      Synced c ∧
      (∀ key, (c.cacheMap.lookup key).isSome → Bytes.lit "FROM " <:+: key →
        ∃ name keys, FollowsFrom key name ∧ c.tableEntries.lookup name = some keys ∧
          key ∈ keys) ∧
      ∀ tableName, ∃ c', c.invalidateTable tableName = .ok c' ∧ Synced c' ∧
        resultsOf c' =
          (resultsOf c).filter fun e => ¬ FollowsFrom e.1 (Bytes.toUpper tableName) := by
  obtain ⟨c, hrun, hc⟩ := Actions.runAll_simulates cacheCall_refines (refines_new hcap) calls
  refine ⟨c, _, hrun, hc.synced, fun key => hc.synced.listed_from, fun tableName => ?_⟩
  obtain ⟨c', hinv, hc'⟩ := invalidateTable_refines hc tableName
  refine ⟨c', hinv, hc'.synced, ?_⟩
  rw [hc'.entries, Recency.removeWhere, ← hc.entries]
  refine List.filter_congr fun e _ => ?_
  rw [takenToRead, decide_not, decide_eq_decide.mpr extractTable_eq_some]

/-- A cache of two entries, after an eviction: the key that went is still on
the list of its table, and comes back. -/
theorem invalidateTable_exact_evicted : ∃ c answers,
    Actions.runAll cacheCall (LRUCache.new 2)
      [.put (Bytes.lit "select * from a") ⟨[], []⟩, .put (Bytes.lit "select x from b") ⟨[], []⟩,
        .put (Bytes.lit "select y from a") ⟨[], []⟩,
        .put (Bytes.lit "select * from a") ⟨[], []⟩] = .ok (c, answers) ∧
      ∀ tableName, ∃ c', c.invalidateTable tableName = .ok c' ∧ Synced c' ∧
        resultsOf c' =
          (resultsOf c).filter fun e => ¬ FollowsFrom e.1 (Bytes.toUpper tableName) := by
  obtain ⟨c, answers, hrun, -, -, hinv⟩ := invalidateTable_exact (by decide : 1 ≤ 2)
    [.put (Bytes.lit "select * from a") ⟨[], []⟩, .put (Bytes.lit "select x from b") ⟨[], []⟩,
      .put (Bytes.lit "select y from a") ⟨[], []⟩, .put (Bytes.lit "select * from a") ⟨[], []⟩]
  exact ⟨c, answers, hrun, hinv⟩

end Caches

/-! ## Rows that are stored -/

section Inserts

variable [FloatLib] {ex ex' : Executor} {now : Int64} {sql : Bytes} {r : QueryResult}
  {stmt : InsertStmt}

/-- An `INSERT` that adds a row keeps all entries if it fails half way, and
otherwise those whose texts do not name its table. -/
theorem Consistent.isSome_insert (h : Consistent ex)
    (hparse : parseSql sql = .ok (.ok (.insert stmt)))
    (hstep : ex.executeSql now sql = .ok (ex', r))
    (hadded : RowAdded ex ex' (Bytes.toUpper stmt.tableName)) (key : Bytes) :
    (ex'.cache.cacheMap.lookup key).isSome ↔ (ex.cache.cacheMap.lookup key).isSome ∧
      (takenToRead stmt.tableName key → PartialInsert ex sql) := by
  obtain ⟨t, t', ht, ht', hmore⟩ := hadded
  rw [Executor.executeSql, hparse] at hstep
  change ex.execInsert now stmt = _ at hstep
  rw [Executor.execInsert, ht] at hstep
  obtain ⟨⟨t₁, n, e⟩, htuples, hstep⟩ := Outcome.bind_eq_ok.mp hstep
  cases e with
  | some e =>
      obtain ⟨rfl, -⟩ := Prod.mk.inj (Except.ok.inj hstep)
      rw [Finmap.lookup_insert] at ht'
      obtain rfl := Option.some.inj ht'
      have hstores : StoresRow ex stmt := (insertTuples_stores ht htuples).resolve_left
        fun heq => absurd hmore (by rw [heq]; exact Nat.lt_irrefl _)
      have hpartial := partialInsert_of_fails hparse ht htuples hstores
      exact ⟨fun hkey => ⟨hkey, fun _ => hpartial⟩, fun hkey => hkey.1⟩
  | none =>
      obtain ⟨cache, hinv, hstep⟩ := Outcome.bind_eq_ok.mp hstep
      obtain ⟨rfl, -⟩ := Prod.mk.inj (Except.ok.inj hstep)
      obtain ⟨s, hs⟩ := h.cache
      -- all tuples went in, so it is not a partial one
      have hwhole : ¬ PartialInsert ex sql := by
        rintro ⟨stmt₂, t₂, first, rest, hparse₂, ht₂, hbatch, -, bad, hmem, hbad⟩
        obtain rfl : stmt = stmt₂ := by simpa using hparse.symm.trans hparse₂
        obtain rfl := Option.some.inj (ht.symm.trans ht₂)
        exact hbad ((insertTuples_cases htuples).1.mp rfl bad
          (by rw [hbatch]; exact List.mem_cons_of_mem _ hmem))
      change (cache.cacheMap.lookup key).isSome ↔ _
      rw [hs.isSome_invalidateTable hinv]
      refine and_congr_right fun _ => ?_
      rw [takenToRead, takenToRead, Bytes.toUpper_idem, ← Bool.not_eq_true]
      exact ⟨fun hnot ht => absurd ht hnot, fun hpart ht => hwhole (hpart ht)⟩

/-- After an `INSERT` that stored a row, in any run, no query that reads the
table is in the cache just when each that was there names the table behind its
first `FROM ` and the `INSERT` takes all its tuples or none. -/
theorem insert_drops_readers_iff {before : List (Int64 × Bytes)} {answers : List QueryResult}
    (hrun : Actions.runAll (fun ex call => ex.executeSql call.1 call.2) Executor.new before =
      .ok (ex, answers))
    (hparse : parseSql sql = .ok (.ok (.insert stmt)))
    (hstep : ex.executeSql now sql = .ok (ex', r))
    (hadded : RowAdded ex ex' (Bytes.toUpper stmt.tableName)) :
    (∀ text sel, Cached (before.map (·.2)) ex' text sel →
        Bytes.toUpper stmt.tableName ∉ reads sel) ↔
      ∀ text sel, Cached (before.map (·.2)) ex text sel →
        Bytes.toUpper stmt.tableName ∈ reads sel →
          takenToRead stmt.tableName (LRUCache.normalize text) ∧ ¬ PartialInsert ex sql := by
  have hreach : Reachable ex := Actions.runAll_keeps
    (fun _ _ _ _ h hstep => reachable_executeSql h hstep) Reachable.new hrun
  have hkept := (reachable_consistent hreach).isSome_insert hparse hstep hadded
  constructor
  · intro hnone text sel hc hreads
    have hgone : ¬ (ex'.cache.cacheMap.lookup (LRUCache.normalize text)).isSome :=
      fun hkey => hnone text sel ⟨hc.seen, hc.query, hkey⟩ hreads
    rw [hkept, not_and, Classical.not_imp] at hgone
    exact hgone hc.kept
  · intro hall text sel hc hreads
    obtain ⟨hkey, hpart⟩ := (hkept _).mp hc.kept
    obtain ⟨htaken, hwhole⟩ := hall text sel ⟨hc.seen, hc.query, hkey⟩ hreads
    exact hwhole (hpart htaken)

end Inserts

section Runs

attribute [local instance] noDoubles

/-- What the run below looks at: the rows of a table before and after a
statement, and whether a query is in the cache after it. -/
def watched (before : List (Int64 × Bytes)) (sql name text : Bytes) :
    Outcome ((Option Nat × Option Nat) × Bool) := do
  let (ex, _) ← Actions.runAll (fun ex call => ex.executeSql call.1 call.2) Executor.new before
  let (ex', _) ← ex.executeSql 0 sql
  .ok (((ex.tables.lookup name).map (·.rows.length), (ex'.tables.lookup name).map (·.rows.length)),
    (ex'.cache.cacheMap.lookup (LRUCache.normalize text)).isSome)

theorem watched_ok {before : List (Int64 × Bytes)} {sql name text : Bytes} {kept : Bool}
    (h : watched before sql name text = .ok ((some 0, some 1), kept)) :
    ∃ ex answers ex' r,
      Actions.runAll (fun ex call => ex.executeSql call.1 call.2) Executor.new before =
        .ok (ex, answers) ∧
      ex.executeSql 0 sql = .ok (ex', r) ∧ RowAdded ex ex' name ∧
      (ex'.cache.cacheMap.lookup (LRUCache.normalize text)).isSome = kept := by
  obtain ⟨⟨ex, answers⟩, hrun, h⟩ := Outcome.bind_eq_ok.mp h
  obtain ⟨⟨ex', r⟩, hstep, h⟩ := Outcome.bind_eq_ok.mp h
  simp only [Except.ok.injEq, Prod.mk.injEq, Option.map_eq_some_iff] at h
  obtain ⟨⟨⟨t, ht, hlen⟩, t', ht', hlen'⟩, hkept⟩ := h
  exact ⟨ex, answers, ex', r, hrun, hstep, ⟨t, t', ht, ht', by omega⟩, hkept⟩

/-- A query on the table itself is dropped. -/
theorem insert_drops_readers_single : ∃ ex answers ex' r,
    Actions.runAll (fun ex call => ex.executeSql call.1 call.2) Executor.new
      [(0, Bytes.lit "CREATE TABLE b (id INT)"), (0, Bytes.lit "SELECT * FROM b")] =
        .ok (ex, answers) ∧
    ex.executeSql 0 (Bytes.lit "INSERT INTO b VALUES (1)") = .ok (ex', r) ∧
    ∀ text sel, Cached [Bytes.lit "CREATE TABLE b (id INT)", Bytes.lit "SELECT * FROM b"] ex'
      text sel → Bytes.lit "B" ∉ reads sel := by
  have hcreate : parseSql (Bytes.lit "CREATE TABLE b (id INT)") =
      .ok (.ok (.createTable ⟨Bytes.lit "b", [⟨Bytes.lit "id", Bytes.lit "INT", 255⟩]⟩)) := by
    decide +kernel
  have hinsert : parseSql (Bytes.lit "INSERT INTO b VALUES (1)") =
      .ok (.ok (.insert ⟨Bytes.lit "b", [[Bytes.lit "1"]]⟩)) := by
    decide +kernel
  have hwatched : watched
      [(0, Bytes.lit "CREATE TABLE b (id INT)"), (0, Bytes.lit "SELECT * FROM b")]
      (Bytes.lit "INSERT INTO b VALUES (1)") (Bytes.lit "B") (Bytes.lit "SELECT * FROM b") =
        .ok ((some 0, some 1), false) := by
    decide +kernel
  obtain ⟨ex, answers, ex', r, hrun, hstep, hadded, -⟩ := watched_ok hwatched
  refine ⟨ex, answers, ex', r, hrun, hstep,
    (insert_drops_readers_iff hrun hinsert hstep hadded).mpr fun text sel hc _ => ⟨?_, ?_⟩⟩
  · have hmem := hc.seen
    simp only [List.map_cons, List.map_nil, List.mem_cons, List.not_mem_nil, or_false] at hmem
    rcases hmem with rfl | rfl
    · exact absurd (hcreate.symm.trans hc.query) (by simp)
    · decide
  · rintro ⟨stmt, -, first, rest, hparse, -, hbatch, -, bad, hmem, -⟩
    obtain rfl : _ = stmt := by simpa using hinsert.symm.trans hparse
    obtain ⟨-, rfl⟩ := List.cons.inj hbatch
    exact absurd hmem (by simp)

/-- A query that joins the table is not: its text is listed under the table it
starts from. -/
theorem insert_keeps_joined_reader : ∃ ex answers ex' r sel,
    Actions.runAll (fun ex call => ex.executeSql call.1 call.2) Executor.new
      [(0, Bytes.lit "CREATE TABLE a (id INT)"), (0, Bytes.lit "CREATE TABLE b (id INT)"),
        (0, Bytes.lit "SELECT * FROM a INNER JOIN b ON a.id = b.id")] = .ok (ex, answers) ∧
    ex.executeSql 0 (Bytes.lit "INSERT INTO b VALUES (1)") = .ok (ex', r) ∧
    RowAdded ex ex' (Bytes.lit "B") ∧
    Cached [Bytes.lit "CREATE TABLE a (id INT)", Bytes.lit "CREATE TABLE b (id INT)",
      Bytes.lit "SELECT * FROM a INNER JOIN b ON a.id = b.id"] ex'
      (Bytes.lit "SELECT * FROM a INNER JOIN b ON a.id = b.id") sel ∧
    Bytes.lit "B" ∈ reads sel := by
  have hselect : parseSql (Bytes.lit "SELECT * FROM a INNER JOIN b ON a.id = b.id") =
      .ok (.ok (.select ⟨Bytes.lit "a", [], true, none, some ⟨Bytes.lit "b",
        ⟨Bytes.lit "a", Bytes.lit "id"⟩, ⟨Bytes.lit "b", Bytes.lit "id"⟩, .eq⟩⟩)) := by
    decide +kernel
  have hwatched : watched
      [(0, Bytes.lit "CREATE TABLE a (id INT)"), (0, Bytes.lit "CREATE TABLE b (id INT)"),
        (0, Bytes.lit "SELECT * FROM a INNER JOIN b ON a.id = b.id")]
      (Bytes.lit "INSERT INTO b VALUES (1)") (Bytes.lit "B")
      (Bytes.lit "SELECT * FROM a INNER JOIN b ON a.id = b.id") =
        .ok ((some 0, some 1), true) := by
    decide +kernel
  obtain ⟨ex, answers, ex', r, hrun, hstep, hadded, hkept⟩ := watched_ok hwatched
  exact ⟨ex, answers, ex', r, _, hrun, hstep, hadded,
    ⟨by simp, hselect, hkept⟩, by decide⟩

end Runs

end FlexQL.Proofs
