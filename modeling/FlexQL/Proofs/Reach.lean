import FlexQL.Proofs.BPTreeTotal
import FlexQL.Proofs.Catalog
import FlexQL.Proofs.LRUCache
import FlexQL.Proofs.TableIndex
import FlexQL.Spec.Reach

/-!
# What holds in every state of an executor

The cache is in step with itself, and a table whose rows have a size stores
a list of records, whatever its keys are. With that the calls of an executor
return.
-/

namespace FlexQL.Proofs

open Lib FlexQL.Ref FlexQL.Spec

/-! ## Tables -/

/-- A table as insertions leave it. -/
structure Settled (t : Table) : Prop where
  built : ∃ cols, t.schema = Schema.empty.addColumns cols
  pk : t.schema.columns ≠ []
  stores : extent t.schema.columns + 9 < 2 ^ 32 → ∃ rs, Rep t rs

theorem buildIndex_total (s : Schema) (rows : List Row) : ∃ index, buildIndex s rows = .ok index :=
  insertAll_total _ _

section Tables

variable {t t' : Table} {rs : List Record} {now : Int64}

/-- A row that passes the check goes in. -/
theorem Rep.insert_stored (h : Rep t rs) {row : Row} (hv : t.schema.validateRow row = none)
    (now : Int64) : ∃ t', t.insert now row = .ok (t', none) ∧
      Rep t' (rs ++ [recordOf t.ttlSeconds (now, row)]) ∧ t'.schema = t.schema ∧
      t'.ttlSeconds = t.ttlSeconds := by
  obtain ⟨a, p, hins, -⟩ := h.insert_accepted hv now
  obtain ⟨index, hindex⟩ := buildIndex_total t.schema (rs.map (·.values) ++ [row])
  rw [buildIndex_append, h.index, Outcome.bind_ok, List.length_map] at hindex
  obtain ⟨⟨index', b⟩, hrun, -⟩ := Outcome.map_eq_ok.mp hindex
  rw [hrun] at hins
  have hok : t.insert now row = .ok (pushRow t a p index', none) := hins
  obtain ⟨hrep, -, -, hs, httl⟩ := h.insert_ok hok
  exact ⟨_, hok, hrep, hs, httl⟩

theorem Rep.insert_returns (h : Rep t rs) (now : Int64) (row : Row) :
    ∃ x, t.insert now row = .ok x := by
  cases hv : t.schema.validateRow row with
  | some e => exact ⟨_, insert_rejected hv now⟩
  | none =>
      obtain ⟨t', hins, -⟩ := h.insert_stored hv now
      exact ⟨_, hins⟩

theorem settled_new {name : Bytes} {s : Schema} {ttl : UInt32}
    (hb : ∃ cols, s = Schema.empty.addColumns cols) (h : Table.new name s ttl = .ok t) :
    Settled t := by
  obtain ⟨pk, hpk, hk⟩ := Outcome.bind_eq_ok.mp h
  have hs : t.schema = s := by
    rw [← Except.ok.inj hk]
  have hcols : s.columns ≠ [] := by
    intro hnil
    rw [Schema.pkColumn, hnil] at hpk
    exact absurd hpk (by simp)
  refine ⟨hs ▸ hb, hs ▸ hcols, fun hsize => ⟨[], ?_⟩⟩
  rw [hs] at hsize
  obtain ⟨t', hnew, hrep, -⟩ := rep_new name ⟨hb, hcols, hsize⟩ ttl
  rwa [Except.ok.inj (h.symm.trans hnew)]

theorem Settled.insert (h : Settled t) {row : Row} {e : Option Bytes}
    (hins : t.insert now row = .ok (t', e)) : Settled t' := by
  rcases insert_cases hins with ⟨-, rfl, -⟩ | ⟨rfl, hv, -, -, hs, -⟩
  · exact h
  · refine ⟨hs ▸ h.built, hs ▸ h.pk, fun hsize => ?_⟩
    rw [hs] at hsize
    obtain ⟨rs, hrep⟩ := h.stores hsize
    exact ⟨_, (hrep.insert_ok hins).1⟩

theorem Settled.inserted (h : Settled t) {ops : List (Int64 × Row)} (hrun : Inserted t ops t') :
    Settled t' := by
  induction hrun with
  | nil => exact h
  | snoc _ hins ih => exact ih.insert hins

variable [FloatLib]

/-- What an insertion keeps, the loop over the tuples keeps. -/
theorem insertTuples_keeps {Q : Table → Prop}
    (hins : ∀ t row t' e, Q t → t.insert now row = .ok (t', e) → Q t')
    {tuples : List (List Bytes)} {n n' : Nat} {e : Option Bytes} (h : Q t)
    (hrun : Executor.insertTuples now tuples t n = .ok (t', n', e)) : Q t' := by
  induction tuples generalizing t n with
  | nil =>
      simp only [Executor.insertTuples, Except.ok.injEq, Prod.mk.injEq] at hrun
      exact hrun.1 ▸ h
  | cons first rest ih =>
      rw [Executor.insertTuples] at hrun
      split at hrun
      · simp only [Except.ok.injEq, Prod.mk.injEq] at hrun
        exact hrun.1 ▸ h
      · obtain ⟨⟨t₁, e₁⟩, hrow, hrun⟩ := Outcome.bind_eq_ok.mp hrun
        have h₁ := hins _ _ _ _ h hrow
        dsimp only at hrun
        split at hrun
        · simp only [Except.ok.injEq, Prod.mk.injEq] at hrun
          exact hrun.1 ▸ h₁
        · exact ih h₁ hrun

theorem Settled.insertTuples {tuples : List (List Bytes)} {n n' : Nat} {e : Option Bytes}
    (h : Settled t) (hrun : Executor.insertTuples now tuples t n = .ok (t', n', e)) :
    Settled t' :=
  insertTuples_keeps (fun _ _ _ _ ht hins => ht.insert hins) h hrun

end Tables

/-! ## Executors -/

/-- What holds between the calls. -/
structure Consistent (ex : Executor) : Prop where
  cache : ∃ s, Refines ex.cache s
  tables : ∀ name t, ex.tables.lookup name = some t → Settled t

section Executors

variable {ex ex' : Executor} {now : Int64} {r : QueryResult}

theorem Consistent.insertTable {cache : LRUCache} {name : Bytes} {t : Table}
    (h : Consistent ex) (hc : ∃ s, Refines cache s) (ht : Settled t) :
    Consistent ⟨ex.tables.insert name t, cache⟩ := by
  refine ⟨hc, fun name' t' hlook => ?_⟩
  by_cases hn : name' = name
  · subst hn
    rw [Finmap.lookup_insert] at hlook
    exact Option.some.inj hlook ▸ ht
  · rw [Finmap.lookup_insert_of_ne _ hn] at hlook
    exact h.tables name' t' hlook

theorem Consistent.lookupCache (h : Consistent ex) (rawSql : Bytes) :
    ∃ cache cached, Executor.lookupCache ex.cache rawSql = .ok (cache, cached) ∧
      ∃ s, Refines cache s := by
  obtain ⟨s, hs⟩ := h.cache
  rw [Executor.lookupCache]
  split
  · exact ⟨ex.cache, none, rfl, s, hs⟩
  · obtain ⟨c, hget, hc⟩ := get_refines hs rawSql
    exact ⟨c, _, hget, _, hc⟩

theorem fillCache_refines {cache : LRUCache} {s : Results} (h : Refines cache s)
    (rawSql : Bytes) (r : CachedResult) :
    ∃ cache', Executor.fillCache cache rawSql r = .ok cache' ∧ ∃ s, Refines cache' s := by
  rw [Executor.fillCache]
  split
  · exact ⟨cache, rfl, s, h⟩
  · obtain ⟨c, hput, hc⟩ := put_refines h rawSql r
    exact ⟨c, hput, _, hc⟩

theorem Consistent.execCreateTable {stmt : CreateTableStmt} (h : Consistent ex)
    (hrun : ex.execCreateTable stmt = .ok (ex', r)) : Consistent ex' := by
  rcases execCreateTable_cases hrun with ⟨-, rfl⟩ | ⟨-, -, schema, table, hschema, hnew, rfl⟩
  · exact h
  · exact h.insertTable h.cache (settled_new (buildSchema_built hschema) hnew)

variable [FloatLib]

theorem Consistent.execSelect {stmt : SelectStmt} {rawSql : Bytes} (h : Consistent ex)
    (hrun : ex.execSelect now stmt rawSql = .ok (ex', r)) : Consistent ex' := by
  have htables : ∀ cache, (∃ s, Refines cache s) → Consistent { ex with cache := cache } :=
    fun cache hc => ⟨hc, h.tables⟩
  obtain ⟨cache, cached, hlook, s, hs⟩ := h.lookupCache rawSql
  rw [Executor.execSelect, hlook, Outcome.bind_ok] at hrun
  cases cached with
  | some res =>
      obtain ⟨rfl, -⟩ := Prod.mk.inj (Except.ok.inj hrun)
      exact htables cache ⟨s, hs⟩
  | none =>
      obtain ⟨answer, -, hrun⟩ := Outcome.bind_eq_ok.mp hrun
      cases answer with
      | error e =>
          obtain ⟨rfl, -⟩ := Prod.mk.inj (Except.ok.inj hrun)
          exact htables cache ⟨s, hs⟩
      | ok res =>
          obtain ⟨cache', hfill, hrun⟩ := Outcome.bind_eq_ok.mp hrun
          obtain ⟨rfl, -⟩ := Prod.mk.inj (Except.ok.inj hrun)
          obtain ⟨cache₂, hfill₂, hc⟩ := fillCache_refines hs rawSql res
          obtain rfl := Except.ok.inj (hfill.symm.trans hfill₂)
          exact htables cache' hc

/-- What `exec_select` returns for a computed answer. -/
def resultOf : Except Bytes CachedResult → QueryResult
  | .error e => .failure e
  | .ok r => .answer r

/-- A query that is not in the cache returns what the tables give. -/
theorem Consistent.execSelect_miss {stmt : SelectStmt} {rawSql : Bytes} (h : Consistent ex)
    (hmiss : ∃ cache, Executor.lookupCache ex.cache rawSql = .ok (cache, none))
    {Q : QueryResult → Prop} :
    (∃ ex' r, ex.execSelect now stmt rawSql = .ok (ex', r) ∧ Q r) ↔
      ∃ res, Executor.selectRows ex.tables now stmt = .ok res ∧ Q (resultOf res) := by
  obtain ⟨cache, hmiss⟩ := hmiss
  obtain ⟨cache₁, cached, hlook, s, hs⟩ := h.lookupCache rawSql
  obtain ⟨rfl, rfl⟩ := Prod.mk.inj (Except.ok.inj (hmiss.symm.trans hlook))
  cases hsel : Executor.selectRows ex.tables now stmt with
  | error fault =>
      have hrun : ex.execSelect now stmt rawSql = .error fault := by
        simp only [Executor.execSelect, hmiss, Outcome.bind_ok, hsel, Outcome.bind_error]
      simp [hrun]
  | ok res =>
      obtain ⟨ex₁, hrun⟩ : ∃ ex₁, ex.execSelect now stmt rawSql = .ok (ex₁, resultOf res) := by
        simp only [Executor.execSelect, hmiss, Outcome.bind_ok, hsel]
        cases res with
        | error e => exact ⟨_, rfl⟩
        | ok answer =>
            obtain ⟨cache', hfill, -⟩ := fillCache_refines hs rawSql answer
            simp only [hfill, Outcome.bind_ok]
            exact ⟨_, rfl⟩
      simp [hrun]

theorem Consistent.execInsert {stmt : InsertStmt} (h : Consistent ex)
    (hrun : ex.execInsert now stmt = .ok (ex', r)) : Consistent ex' := by
  obtain ⟨s, hs⟩ := h.cache
  rw [Executor.execInsert] at hrun
  split at hrun
  · obtain ⟨rfl, -⟩ := Prod.mk.inj (Except.ok.inj hrun)
    exact h
  · next t ht =>
      obtain ⟨⟨t', n, e⟩, htuples, hrun⟩ := Outcome.bind_eq_ok.mp hrun
      have hset := (h.tables _ t ht).insertTuples htuples
      cases e with
      | some e =>
          obtain ⟨rfl, -⟩ := Prod.mk.inj (Except.ok.inj hrun)
          exact h.insertTable h.cache hset
      | none =>
          obtain ⟨cache, hinv, hrun⟩ := Outcome.bind_eq_ok.mp hrun
          obtain ⟨rfl, -⟩ := Prod.mk.inj (Except.ok.inj hrun)
          obtain ⟨cache', hinv', hc⟩ := invalidateTable_refines hs (Bytes.toUpper stmt.tableName)
          obtain rfl := Except.ok.inj (hinv.symm.trans hinv')
          exact h.insertTable ⟨_, hc⟩ hset

theorem reachable_consistent (h : Reachable ex) : Consistent ex := by
  induction h with
  | new => exact ⟨⟨_, refines_new (by decide)⟩, fun name t ht => absurd ht (by simp [Executor.new])⟩
  | @execute ex ex' now stmt rawSql r _ hrun ih =>
      cases stmt with
      | createTable stmt => exact ih.execCreateTable hrun
      | insert stmt => exact ih.execInsert hrun
      | select stmt => exact ih.execSelect hrun
  | restore _ hnew hins ih =>
      exact ih.insertTable ih.cache ((settled_new ⟨_, rfl⟩ hnew).inserted hins)

theorem reachable_executeSql {sql : Bytes} (h : Reachable ex)
    (hrun : ex.executeSql now sql = .ok (ex', r)) : Reachable ex' := by
  obtain ⟨parsed, -, hrun⟩ := Outcome.bind_eq_ok.mp hrun
  cases parsed with
  | error e =>
      obtain ⟨rfl, -⟩ := Prod.mk.inj (Except.ok.inj hrun)
      exact h
  | ok stmt => exact .execute h hrun

theorem reachable_runAll {sqls : List Bytes} {rs : List QueryResult} (h : Reachable ex)
    (hrun : runAll now ex sqls = .ok (ex', rs)) : Reachable ex' := by
  induction sqls generalizing ex rs with
  | nil =>
      obtain ⟨rfl, -⟩ := Prod.mk.inj (Except.ok.inj hrun)
      exact h
  | cons sql sqls ih =>
      obtain ⟨⟨ex₁, r₁⟩, hstep, hrun⟩ := Outcome.bind_eq_ok.mp hrun
      obtain ⟨⟨ex₂, rs₂⟩, hrest, hrun⟩ := Outcome.bind_eq_ok.mp hrun
      obtain ⟨rfl, -⟩ := Prod.mk.inj (Except.ok.inj hrun)
      exact ih (reachable_executeSql h hstep) hrest

end Executors

end FlexQL.Proofs
