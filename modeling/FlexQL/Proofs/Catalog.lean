import FlexQL.Lib.MapRel
import FlexQL.Proofs.Executor
import FlexQL.Proofs.Table
import FlexQL.Spec.Catalog

/-!
# The executor simulates the catalog

`Models` relates the tables of an executor to a catalog: each table stores
the rows of its relation, in any memory and with any expiry. A statement that
returns takes related states to related states with the same answer, and the
two sides stop alike, so what the executor does to its tables is a function
of the text alone.
-/

namespace FlexQL.Proofs

open Lib FlexQL.Ref FlexQL.Spec

/-! ## One table -/

/-- The table stores the rows of the relation. -/
structure TableModels (name : Bytes) (t : Table) (r : Rel) : Prop where
  stores : ∃ rs, Rep t rs ∧ rs.map (·.values) = r.rows ∧ ∀ rec ∈ rs, rec.valid = true
  name : t.name = name
  schema : t.schema = r.schema
  ttl : t.ttlSeconds = defaultTtlSeconds

section Tables

variable {name : Bytes} {t t' : Table} {r : Rel}

theorem Rep.readRows {rs : List Record} (h : Rep t rs) :
    t.rows.mapM t.readRow = .ok (rs.map (·.values)) := by
  rw [Outcome.mapM_eq_ok, List.forall₂_map_right_iff]
  exact h.rows.imp fun _ _ hr => hr.readRow h.fits

/-- Tables of one relation are the same. -/
theorem TableModels.same (h : TableModels name t r) (h' : TableModels name t' r) :
    SameTable t t' := by
  obtain ⟨rs, hrep, hrows, hvalid⟩ := h.stores
  obtain ⟨rs', hrep', hrows', hvalid'⟩ := h'.stores
  have hcount : ∀ {l : List Record}, (∀ rec ∈ l, rec.valid = true) →
      l.countP (·.valid) = (l.map (·.values)).length := by
    intro l hl
    rw [List.length_map, List.countP_eq_length.mpr hl]
  have hindex := hrep.index
  have hindex' := hrep'.index
  rw [hrows, h.schema] at hindex
  rw [hrows', h'.schema] at hindex'
  refine ⟨h'.name.trans h.name.symm, h'.schema.trans h.schema.symm,
    ⟨r.rows, hrows ▸ hrep.readRows, hrows' ▸ hrep'.readRows⟩,
    Except.ok.inj (hindex'.symm.trans hindex), ?_⟩
  rw [hrep'.count, hrep.count, hcount hvalid, hcount hvalid', hrows, hrows']

/-- A row that passes the check goes in on both sides, if the index takes it. -/
theorem TableModels.insert (h : TableModels name t r) {row : Row}
    (hv : r.schema.validateRow row = none) (now : Int64) :
    Outcome.Matches (fun x r' => TableModels name x.1 r' ∧ x.2 = none) (t.insert now row)
      (r.push row) := by
  obtain ⟨rs, hrep, hrows, hvalid⟩ := h.stores
  have hv' : t.schema.validateRow row = none := by rw [h.schema]; exact hv
  obtain ⟨a, p, hins, hstored⟩ := hrep.insert_accepted hv' now
  have hbuild : buildIndex r.schema (r.rows ++ [row])
      = Prod.fst <$> t.pkIndex.insert (key row) rs.length := by
    rw [← h.schema, ← hrows, buildIndex_append, hrep.index, Outcome.bind_ok, List.length_map]
  rw [hins, Rel.push, hbuild]
  cases hindex : t.pkIndex.insert (key row) rs.length with
  | error e => exact Outcome.Matches.refl_error e
  | ok index =>
      refine ⟨⟨⟨_, hstored index.1 ?_, ?_, ?_⟩, h.name, h.schema, h.ttl⟩, rfl⟩
      · rw [hrows, h.schema, hbuild, hindex]
        rfl
      · rw [List.map_append, hrows]
        rfl
      · intro rec hrec
        rcases List.mem_append.mp hrec with hrec | hrec
        · exact hvalid rec hrec
        · rw [List.mem_singleton.mp hrec]

/-- A new table. -/
theorem tableModels_new (name : Bytes) {s : Schema} (hb : ∃ cols, s = Schema.empty.addColumns cols)
    (hsize : extent s.columns + 9 < 2 ^ 32) :
    Outcome.Matches (fun t _ => TableModels name t ⟨s, []⟩)
      (Table.new name s defaultTtlSeconds) s.pkColumn := by
  by_cases hpk : s.columns = []
  · have hnone : s.pkColumn = .error .undefined := by rw [Schema.pkColumn, hpk]; rfl
    rw [Table.new, hnone]
    rfl
  · obtain ⟨t, hnew, hrep, hname, hs, httl⟩ := rep_new name ⟨hb, hpk, hsize⟩ defaultTtlSeconds
    obtain ⟨c, hc, _⟩ := Outcome.bind_eq_ok.mp hnew
    rw [hnew, hc]
    exact ⟨⟨[], hrep, rfl, by simp⟩, hname, hs, httl⟩

variable [FloatLib]

/-- The tuples of an `INSERT`. -/
theorem TableModels.insertTuples (now : Int64) {tuples : List (List Bytes)} {n : Nat}
    (h : TableModels name t r) :
    Outcome.Matches (fun x y => TableModels name x.1 y.1 ∧ (x.2.2 = none ↔ y.2 = true))
      (Executor.insertTuples now tuples t n) (r.insertTuples tuples) := by
  induction tuples generalizing t r n with
  | nil => exact ⟨h, by simp⟩
  | cons rowVals rest ih =>
      rw [Executor.insertTuples, Rel.insertTuples, h.schema]
      cases Executor.parseTuple r.schema rowVals with
      | error e => exact ⟨h, by simp⟩
      | ok row =>
          cases hv : r.schema.validateRow row with
          | some e =>
              have hrej : t.insert now row = .ok (t, some e) :=
                insert_rejected (by rw [h.schema]; exact hv) now
              simp only [hrej, hv, Outcome.bind_ok]
              exact ⟨h, by simp⟩
          | none =>
              simp only [hv]
              refine (h.insert hv now).bind fun x r' hx => ?_
              obtain ⟨t', e⟩ := x
              obtain ⟨hm, rfl⟩ := hx
              exact ih hm

end Tables

/-! ## All tables -/

/-- The tables store the relations of the catalog. -/
def Models (m : Finmap fun _ : Bytes => Table) (c : Catalog) : Prop :=
  ∀ name, Option.Rel (TableModels name) (m.lookup name) (c.lookup name)

theorem models_empty : Models ∅ ∅ := MapRel.empty

section Models

variable {m m' : Finmap fun _ : Bytes => Table} {c : Catalog} {name : Bytes}

theorem Models.mapRel (h : Models m c) : MapRel TableModels m c := h

theorem Models.same (h : Models m c) (h' : Models m' c) : SameTables m m' :=
  h.mapRel.join h'.mapRel fun _ _ _ _ _ ht ht' => ht.same ht'

theorem Models.lookup_none (h : Models m c) (hc : c.lookup name = none) :
    m.lookup name = none :=
  h.mapRel.none_iff.mpr hc

theorem Models.lookup_some (h : Models m c) {r : Rel} (hc : c.lookup name = some r) :
    ∃ t, m.lookup name = some t ∧ TableModels name t r :=
  h.mapRel.right hc

theorem Models.insert (h : Models m c) {t : Table} {r : Rel} (ht : TableModels name t r) :
    Models (m.insert name t) (Finmap.insert name r c) :=
  h.mapRel.insert ht

end Models

/-! ## What a statement does to a catalog -/

section Apply

variable {c c' : Catalog} {ok : Bool}

theorem create_ok {stmt : CreateTableStmt} (h : c.create stmt = .ok (c', ok)) :
    (c' = c ∧ ok = false) ∨ ∃ schema,
      Executor.buildSchema Schema.empty stmt.columns = .ok schema ∧
      c' = Finmap.insert (Bytes.toUpper stmt.tableName) ⟨schema, []⟩ c := by
  rw [Catalog.create] at h
  split at h
  · obtain ⟨rfl, rfl⟩ := Prod.mk.inj (Except.ok.inj h)
    exact .inl ⟨rfl, rfl⟩
  · split at h
    · obtain ⟨rfl, rfl⟩ := Prod.mk.inj (Except.ok.inj h)
      exact .inl ⟨rfl, rfl⟩
    · next schema hschema =>
        obtain ⟨_, _, h⟩ := Outcome.bind_eq_ok.mp h
        obtain ⟨rfl, _⟩ := Prod.mk.inj (Except.ok.inj h)
        exact .inr ⟨schema, hschema, rfl⟩

variable [FloatLib]

theorem insert_ok {stmt : InsertStmt} (h : c.insert stmt = .ok (c', ok)) :
    (c' = c ∧ ok = false) ∨ ∃ r r', c.lookup (Bytes.toUpper stmt.tableName) = some r ∧
      r.insertTuples stmt.batchValues = .ok (r', ok) ∧
      c' = Finmap.insert (Bytes.toUpper stmt.tableName) r' c := by
  rw [Catalog.insert] at h
  split at h
  · obtain ⟨rfl, rfl⟩ := Prod.mk.inj (Except.ok.inj h)
    exact .inl ⟨rfl, rfl⟩
  · next r hr =>
      obtain ⟨⟨r', ok'⟩, hins, h⟩ := Outcome.bind_eq_ok.mp h
      obtain ⟨rfl, rfl⟩ := Prod.mk.inj (Except.ok.inj h)
      exact .inr ⟨r, r', hr, hins, rfl⟩

end Apply

/-! ## Statements -/

theorem buildSchema_built {s s' : Schema} {cols : List AstColumnDef}
    (h : Executor.buildSchema s cols = .ok s') : ∃ defs, s' = s.addColumns defs := by
  induction cols generalizing s with
  | nil => exact ⟨[], (Except.ok.inj h).symm⟩
  | cons col cols ih =>
      rw [Executor.buildSchema] at h
      split at h
      · exact absurd h (by simp)
      · next dt _ =>
          obtain ⟨defs, rfl⟩ := ih h
          exact ⟨⟨_, dt, _⟩ :: defs, rfl⟩

section Statements

variable {ex ex' : Executor} {c c' : Catalog} {r : QueryResult}

theorem execCreateTable_models (hm : Models ex.tables c) {stmt : CreateTableStmt}
    (hfits : ∀ schema, Executor.buildSchema Schema.empty stmt.columns = .ok schema →
      extent schema.columns + 9 < 2 ^ 32) :
    Outcome.Matches (fun x y => Models x.1.tables y.1 ∧ x.2.success = y.2 ∧
      x.1.cache = ex.cache) (ex.execCreateTable stmt) (c.create stmt) := by
  rw [Executor.execCreateTable, Catalog.create]
  cases hc : c.lookup (Bytes.toUpper stmt.tableName) with
  | some rel =>
      obtain ⟨t, ht, _⟩ := hm.lookup_some hc
      simp only [ht, Option.isSome_some, if_true]
      exact ⟨hm, rfl, rfl⟩
  | none =>
      simp only [hm.lookup_none hc, Option.isSome_none, Bool.false_eq_true, if_false]
      cases hs : Executor.buildSchema Schema.empty stmt.columns with
      | error e => exact ⟨hm, rfl, rfl⟩
      | ok schema =>
          refine (tableModels_new _ (buildSchema_built hs) (hfits schema hs)).bind ?_
          intro t _ ht
          exact ⟨hm.insert ht, rfl, rfl⟩

variable [FloatLib] {now : Int64}

/-- An `INSERT` that returned did to the tables what it does to the catalog. -/
theorem execInsert_models (hm : Models ex.tables c) {stmt : InsertStmt}
    (h : ex.execInsert now stmt = .ok (ex', r)) :
    ∃ c', c.insert stmt = .ok (c', r.success) ∧ Models ex'.tables c' := by
  rw [Catalog.insert]
  cases hc : c.lookup (Bytes.toUpper stmt.tableName) with
  | none =>
      rcases execInsert_cases h with ⟨_, hr, rfl⟩ | ⟨t, _, _, _, ht, _⟩
      · exact ⟨c, by rw [hr], hm⟩
      · rw [hm.lookup_none hc] at ht
        exact absurd ht (by simp)
  | some rel =>
      obtain ⟨t, ht, htm⟩ := hm.lookup_some hc
      rcases execInsert_cases h with ⟨hnone, _⟩ | ⟨t₁, t', n, e, ht₁, hrun, htables, hr⟩
      · rw [ht] at hnone
        exact absurd hnone (by simp)
      · obtain rfl := Option.some.inj (ht.symm.trans ht₁)
        obtain ⟨⟨rel', ok⟩, hrel, hm', hok⟩ := (htm.insertTuples now).ok_left hrun
        refine ⟨Finmap.insert _ rel' c, ?_, htables ▸ hm.insert hm'⟩
        simp only [hrel, Outcome.bind_ok]
        rw [show r.success = ok from Bool.eq_iff_iff.mpr (hr.trans hok)]

/-- With nothing in the cache it also returns when the catalog's does. -/
theorem execInsert_idle (hm : Models ex.tables c) (hidle : ex.cache.tableEntries = ∅)
    (stmt : InsertStmt) :
    Outcome.Matches (fun x y => Models x.1.tables y.1 ∧ x.2.success = y.2 ∧
      x.1.cache = ex.cache) (ex.execInsert now stmt) (c.insert stmt) := by
  have hinv : ∀ name, ex.cache.invalidateTable name = .ok ex.cache := by
    intro name
    rw [LRUCache.invalidateTable, hidle, Finmap.lookup_empty]
  rw [Executor.execInsert, Catalog.insert]
  cases hc : c.lookup (Bytes.toUpper stmt.tableName) with
  | none =>
      simp only [hm.lookup_none hc]
      exact ⟨hm, rfl, rfl⟩
  | some rel =>
      obtain ⟨t, ht, htm⟩ := hm.lookup_some hc
      simp only [ht]
      refine (htm.insertTuples now).bind fun x y hxy => ?_
      obtain ⟨t', n, e⟩ := x
      obtain ⟨rel', ok⟩ := y
      obtain ⟨hm', hok⟩ := hxy
      cases e with
      | some e =>
          have : ok = false := by simpa using hok
          exact ⟨hm.insert hm', this.symm, rfl⟩
      | none =>
          have : ok = true := by simpa using hok
          simp only [hinv, Outcome.bind_ok]
          exact ⟨hm.insert hm', this.symm, rfl⟩

/-- A text that was executed did to the tables what it does to the catalog. -/
theorem executeSql_models (hm : Models ex.tables c) {sql : Bytes} (hfits : FitsSql sql)
    (h : ex.executeSql now sql = .ok (ex', r)) :
    ∃ c' ok, c.apply sql = .ok (c', ok) ∧ Models ex'.tables c' ∧
      (¬ IsSelect sql → r.success = ok) := by
  obtain ⟨parsed, hparse, h⟩ := Outcome.bind_eq_ok.mp h
  rw [Catalog.apply, hparse]
  cases parsed with
  | error e =>
      obtain ⟨rfl, rfl⟩ := Prod.mk.inj (Except.ok.inj h)
      exact ⟨c, false, rfl, hm, fun _ => rfl⟩
  | ok stmt =>
      cases stmt with
      | createTable stmt =>
          obtain ⟨⟨c', ok⟩, hc', hm', hok, _⟩ := (execCreateTable_models hm fun schema hs =>
            hfits stmt schema hparse hs).ok_left h
          exact ⟨c', ok, hc', hm', fun _ => hok⟩
      | insert stmt =>
          obtain ⟨c', hc', hm'⟩ := execInsert_models hm h
          exact ⟨c', r.success, hc', hm', fun _ => rfl⟩
      | select stmt =>
          exact ⟨c, false, rfl, execSelect_tables h ▸ hm, fun hno => absurd ⟨stmt, hparse⟩ hno⟩

/-- With nothing in the cache, a text that is no query runs as it does on the
catalog. -/
theorem executeSql_idle (hm : Models ex.tables c) (hidle : ex.cache.tableEntries = ∅)
    {sql : Bytes} (hfits : FitsSql sql) (hsel : ¬ IsSelect sql) :
    Outcome.Matches (fun x y => Models x.1.tables y.1 ∧ x.2.success = y.2 ∧
      x.1.cache = ex.cache) (ex.executeSql now sql) (c.apply sql) := by
  rw [Executor.executeSql, Catalog.apply]
  cases hparse : parseSql sql with
  | error f => exact Outcome.Matches.refl_error f
  | ok parsed =>
      simp only [Outcome.bind_ok]
      cases parsed with
      | error e => exact ⟨hm, rfl, rfl⟩
      | ok stmt =>
          cases stmt with
          | createTable stmt =>
              exact execCreateTable_models hm fun schema hs => hfits stmt schema hparse hs
          | insert stmt => exact execInsert_idle hm hidle stmt
          | select stmt => exact absurd ⟨stmt, hparse⟩ hsel

end Statements

end FlexQL.Proofs
