import FlexQL.Proofs.Executor
import FlexQL.Proofs.LRUCache
import FlexQL.Spec.Transparency

/-!
# The query cache does not show

Between the statements every answer in the cache is the one its query would
get now. A query that hits the cache then gets what it would have got without
it. What a query answers depends only on the tables it reads, so a statement
has to be looked at only for the answers that read the table it changes.
-/

namespace FlexQL.Proofs

open Lib FlexQL.Ref FlexQL.Spec

/-! ## The entries of the cache -/

/-- A cache in order, of which every entry meets `P`. -/
def Keeps (P : Bytes → CachedResult → Prop) (c : LRUCache) : Prop :=
  ∃ s, Refines c s ∧ ∀ e ∈ s.entries, P e.1 e.2

section Entries

variable {P Q : Bytes → CachedResult → Prop} {c : LRUCache}

theorem keeps_new : Keeps P Executor.new.cache :=
  ⟨_, refines_new (by decide), nofun⟩

theorem Refines.kept {s : Results} (h : Refines c s) {e : Bytes × CachedResult}
    (he : e ∈ s.entries) : (c.cacheMap.lookup e.1).isSome := by
  rw [← h.entries] at he
  obtain ⟨n, hn, rfl⟩ := List.mem_map.mp he
  rw [(h.synced.map n.key n.id).mpr ⟨n, hn, rfl, rfl⟩]
  rfl

theorem Keeps.imp (h : Keeps P c)
    (hPQ : ∀ key r, (c.cacheMap.lookup key).isSome → P key r → Q key r) : Keeps Q c := by
  obtain ⟨s, hs, hP⟩ := h
  exact ⟨s, hs, fun e he => hPQ e.1 e.2 (hs.kept he) (hP e he)⟩

theorem Keeps.lookupCache (h : Keeps P c) (rawSql : Bytes) : ∃ c' cached,
    Executor.lookupCache c rawSql = .ok (c', cached) ∧ Keeps P c' ∧
      ∀ r, cached = some r → (c.cacheMap.lookup (LRUCache.normalize rawSql)).isSome ∧
        P (LRUCache.normalize rawSql) r := by
  obtain ⟨s, hs, hP⟩ := h
  rw [Executor.lookupCache]
  split
  · exact ⟨c, none, rfl, ⟨s, hs, hP⟩, nofun⟩
  · obtain ⟨c', hget, hs'⟩ := get_refines hs rawSql
    refine ⟨c', _, hget, ⟨_, hs', fun e he => hP e (Recency.mem_get he)⟩, fun r hr => ?_⟩
    rw [Recency.get_value] at hr
    have hmem := Recency.mem_of_find hr
    exact ⟨hs.kept hmem, hP _ hmem⟩

theorem Keeps.fillCache (h : Keeps P c) {rawSql : Bytes} {r : CachedResult}
    (hr : P (LRUCache.normalize rawSql) r) :
    ∃ c', Executor.fillCache c rawSql r = .ok c' ∧ Keeps P c' := by
  obtain ⟨s, hs, hP⟩ := h
  rw [Executor.fillCache]
  split
  · exact ⟨c, rfl, s, hs, hP⟩
  · obtain ⟨c', hput, hs'⟩ := put_refines hs rawSql r
    refine ⟨c', hput, _, hs', fun e he => ?_⟩
    rcases Recency.mem_put he with rfl | he
    · exact hr
    · exact hP e he

theorem Keeps.invalidateTable (h : Keeps P c) (tableName : Bytes) :
    ∃ c', c.invalidateTable tableName = .ok c' ∧
      Keeps (fun key r => takenToRead tableName key = false ∧ P key r) c' := by
  obtain ⟨s, hs, hP⟩ := h
  obtain ⟨c', hinv, hs'⟩ := invalidateTable_refines hs tableName
  refine ⟨c', hinv, _, hs', fun e he => ?_⟩
  have hmem := Recency.mem_removeWhere he
  exact ⟨hmem.2, hP e hmem.1⟩

end Entries

/-! ## What an answer depends on -/

theorem toUpper_star (b : Bytes) : Bytes.toUpper b = Bytes.lit "*" ↔ b = Bytes.lit "*" := by
  have hchar : ∀ c, Bytes.upperChar c = 42 ↔ c = 42 := Bytes.forall_byte (by decide +kernel)
  constructor
  · intro h
    obtain ⟨c, l, rfl, hc, hl⟩ := List.map_eq_cons_iff.mp h
    rw [(hchar c).mp hc, List.map_eq_nil_iff.mp hl]
    rfl
  · rintro rfl
    decide

theorem selectsAll_upper (sel : SelectStmt) :
    Executor.selectsAll (upperSelect sel) = Executor.selectsAll sel := by
  rcases sel with ⟨name, _ | ⟨c, _ | ⟨c', l⟩⟩, all, w, j⟩
  · rfl
  · simp [Executor.selectsAll, upperSelect, upperRef, toUpper_star]
  · rfl

theorem selectedColumns_upper (j : Executor.JoinTables) (refs : List ColumnRef) :
    j.selectedColumns (refs.map upperRef) = j.selectedColumns refs := by
  rw [Executor.JoinTables.selectedColumns, Executor.JoinTables.selectedColumns, List.mapM_map]
  simp [upperRef, Function.comp_def]

section Answers

variable [FloatLib] {tables tables' : Finmap fun _ : Bytes => Table} {now : Int64}
  {sel : SelectStmt}

theorem selectSingle_upper (now : Int64) (sel : SelectStmt) (t : Table) :
    Executor.selectSingle now (upperSelect sel) t = Executor.selectSingle now sel t := by
  have hnames : (upperSelect sel).columns.map (fun cr => Bytes.toUpper cr.column) =
      sel.columns.map fun cr => Bytes.toUpper cr.column := by
    simp [upperSelect, upperRef]
  have hscan : Executor.scanTable now t (upperSelect sel).whereClause =
      Executor.scanTable now t sel.whereClause := by
    rw [upperSelect]
    cases sel.whereClause with
    | none => rfl
    | some w => simp [Executor.scanTable, upperRef]
  rw [Executor.selectSingle, Executor.selectSingle, selectsAll_upper, hnames, hscan]

theorem emit_upper (j : Executor.JoinTables) (w : Option WhereClause) :
    j.emit (w.map fun w => { w with column := upperRef w.column }) = j.emit w := by
  cases w with
  | none => rfl
  | some w =>
      funext sources leftRow rightRow
      simp [Executor.JoinTables.emit, Executor.JoinTables.allows, Executor.JoinTables.passes,
        upperRef]

/-- The case of the names does not matter. -/
theorem selectRows_upper (tables : Finmap fun _ : Bytes => Table) (now : Int64)
    (sel : SelectStmt) :
    Executor.selectRows tables now (upperSelect sel) = Executor.selectRows tables now sel := by
  have hname : Bytes.toUpper (upperSelect sel).tableName = Bytes.toUpper sel.tableName :=
    Bytes.toUpper_idem _
  rw [Executor.selectRows, Executor.selectRows, hname]
  cases tables.lookup (Bytes.toUpper sel.tableName) with
  | none => rfl
  | some t =>
      cases hj : sel.join with
      | none =>
          have hj' : (upperSelect sel).join = none := by rw [upperSelect, hj]; rfl
          rw [hj']
          exact selectSingle_upper now sel t
      | some j =>
          have hj' : (upperSelect sel).join = some ⟨Bytes.toUpper j.rightTable,
              upperRef j.leftCol, upperRef j.rightCol, j.op⟩ := by rw [upperSelect, hj]; rfl
          rw [hj']
          simp only [Executor.selectJoin, selectsAll_upper, upperRef, Bytes.toUpper_idem]
          rw [show (upperSelect sel).columns = sel.columns.map upperRef from rfl,
            show (upperSelect sel).whereClause = sel.whereClause.map _ from rfl]
          simp only [selectedColumns_upper, emit_upper]
          rw [Bytes.toUpper_idem]

/-- An answer depends on the tables the query reads only. -/
theorem selectRows_congr (h : ∀ name ∈ reads sel, tables'.lookup name = tables.lookup name) :
    Executor.selectRows tables' now sel = Executor.selectRows tables now sel := by
  rw [Executor.selectRows, Executor.selectRows, h _ (List.mem_cons_self ..)]
  cases hj : sel.join with
  | none => rfl
  | some j =>
      have hright : tables'.lookup (Bytes.toUpper j.rightTable) =
          tables.lookup (Bytes.toUpper j.rightTable) := h _ (by rw [reads, hj]; simp)
      simp only [Executor.selectJoin, hright]

/-- They are all there when there is an answer. -/
theorem selectRows_reads {r : CachedResult} (h : Executor.selectRows tables now sel = .ok (.ok r)) :
    ∀ name ∈ reads sel, (tables.lookup name).isSome := by
  rw [Executor.selectRows] at h
  intro name hname
  cases hleft : tables.lookup (Bytes.toUpper sel.tableName) with
  | none => rw [hleft] at h; exact absurd h nofun
  | some t =>
      rcases List.mem_cons.mp hname with rfl | hname
      · rw [hleft]; rfl
      · rw [Option.mem_toList, Option.map_eq_some_iff] at hname
        obtain ⟨j, hj, rfl⟩ := hname
        simp only [hleft, hj, Executor.selectJoin] at h
        cases hright : tables.lookup (Bytes.toUpper j.rightTable) with
        | none => rw [hright] at h; exact absurd h nofun
        | some t' => rfl

end Answers

/-! ## Statements with and without the cache -/

section Steps

variable [FloatLib] {now : Int64} {seen : List Bytes} {ex ideal : Executor} {sql : Bytes}

/-- An entry is the answer to an earlier query, as it is now. -/
def Answers (now : Int64) (seen : List Bytes) (tables : Finmap fun _ : Bytes => Table)
    (key : Bytes) (r : CachedResult) : Prop :=
  ∃ text sel, text ∈ seen ∧ LRUCache.normalize text = key ∧
    parseSql text = .ok (.ok (.select sel)) ∧ Executor.selectRows tables now sel = .ok (.ok r)

/-- The executor and one without a cache, after the same texts. -/
structure Alike (now : Int64) (seen : List Bytes) (ex ideal : Executor) : Prop where
  tables : ideal.tables = ex.tables
  empty : ideal.cache = Executor.new.cache
  answers : Keeps (Answers now seen ex.tables) ex.cache

/-- One more text, and tables that are the same for the queries in the cache. -/
theorem Answers.step {tables tables' : Finmap fun _ : Bytes => Table} {key : Bytes}
    {r : CachedResult} (h : Answers now seen tables key r)
    (hsame : ∀ text sel, text ∈ seen → LRUCache.normalize text = key →
      parseSql text = .ok (.ok (.select sel)) → (∀ name ∈ reads sel, (tables.lookup name).isSome) →
      ∀ name ∈ reads sel, tables'.lookup name = tables.lookup name) :
    Answers now (seen ++ [sql]) tables' key r := by
  obtain ⟨text, sel, hseen, hkey, hquery, hanswer⟩ := h
  refine ⟨text, sel, List.mem_append_left _ hseen, hkey, hquery, ?_⟩
  rw [selectRows_congr (hsame text sel hseen hkey hquery (selectRows_reads hanswer))]
  exact hanswer

theorem Alike.more (h : Alike now seen ex ideal) : Alike now (seen ++ [sql]) ex ideal :=
  ⟨h.tables, h.empty, h.answers.imp fun _ _ _ ha => ha.step fun _ _ _ _ _ _ _ _ => rfl⟩

/-- What a statement of two executors has to come to. -/
abbrev Same (now : Int64) (seen : List Bytes) (x y : Executor × QueryResult) : Prop :=
  Alike now seen x.1 y.1 ∧ x.2 = y.2

theorem execSelect_uncached (ex : Executor) (now : Int64) (sel : SelectStmt) :
    ex.execSelect now sel [] = Executor.selectRows ex.tables now sel >>= fun
      | .error e => .ok (ex, .failure e)
      | .ok r => .ok (ex, .answer r) :=
  rfl

theorem select_alike {sel : SelectStmt} (h : Alike now seen ex ideal)
    (hsafe : CacheSafe seen ex sql) (hquery : parseSql sql = .ok (.ok (.select sel))) :
    Outcome.Matches (Same now (seen ++ [sql])) (ex.execSelect now sel sql)
      (ideal.execSelect now sel []) := by
  have hafter : ∀ {cache}, Keeps (Answers now seen ex.tables) cache →
      Alike now (seen ++ [sql]) { ex with cache := cache } ideal := fun hc =>
    ⟨h.tables, h.empty, hc.imp fun _ _ _ ha => ha.step fun _ _ _ _ _ _ _ _ => rfl⟩
  obtain ⟨cache, cached, hlook, hcache, hhit⟩ := h.answers.lookupCache sql
  rw [Executor.execSelect, hlook, Outcome.bind_ok, execSelect_uncached, h.tables]
  cases cached with
  | some r =>
      obtain ⟨hkept, text, sel', hseen, hkey, hquery', hanswer⟩ := hhit r rfl
      rw [← hkey] at hkept
      -- the answer under this text is the one of the same query
      have hsame := hsafe.select sel hquery text sel' ⟨hseen, hquery', hkept⟩ hkey
      rw [← selectRows_upper, hsame, selectRows_upper] at hanswer
      rw [hanswer]
      exact ⟨hafter hcache, rfl⟩
  | none =>
      cases hanswer : Executor.selectRows ex.tables now sel with
      | error fault => rfl
      | ok answer =>
          cases answer with
          | error e => exact ⟨hafter hcache, rfl⟩
          | ok r =>
              have hnew : Answers now (seen ++ [sql]) ex.tables (LRUCache.normalize sql) r :=
                ⟨sql, sel, by simp, rfl, hquery, hanswer⟩
              obtain ⟨cache', hfill, hcache'⟩ := (hafter hcache).answers.fillCache hnew
              simp only [Outcome.bind_ok, hfill]
              exact ⟨⟨h.tables, h.empty, hcache'⟩, rfl⟩

theorem create_alike {stmt : CreateTableStmt} (h : Alike now seen ex ideal) :
    Outcome.Matches (Same now (seen ++ [sql])) (ex.execCreateTable stmt)
      (ideal.execCreateTable stmt) := by
  rw [Executor.execCreateTable, Executor.execCreateTable, h.tables]
  split
  · exact ⟨h.more, rfl⟩
  · next hnew =>
      cases Executor.buildSchema Schema.empty stmt.columns with
      | error e => exact ⟨h.more, rfl⟩
      | ok schema =>
          dsimp only
          cases Table.new (Bytes.toUpper stmt.tableName) schema defaultTtlSeconds with
          | error fault => rfl
          | ok t =>
              refine ⟨⟨rfl, h.empty, ?_⟩, rfl⟩
              refine h.answers.imp fun _ _ _ ha => ha.step fun _ sel _ _ _ hall name hname => ?_
              -- the new table is none of those an answer comes from
              have hne : name ≠ Bytes.toUpper stmt.tableName := by
                rintro rfl
                exact hnew (hall _ hname)
              exact Finmap.lookup_insert_of_ne _ hne

/-- The tuples of an `INSERT` leave the table as it was, or the first one is
stored. -/
theorem insertTuples_stores {stmt : InsertStmt} {t t' : Table} {n : Nat} {e : Option Bytes}
    (ht : ex.tables.lookup (Bytes.toUpper stmt.tableName) = some t)
    (hrun : Executor.insertTuples now stmt.batchValues t 0 = .ok (t', n, e)) :
    t' = t ∨ StoresRow ex stmt := by
  cases htuples : stmt.batchValues with
  | nil =>
      rw [htuples, Executor.insertTuples] at hrun
      exact .inl (Prod.mk.inj (Except.ok.inj hrun)).1.symm
  | cons first rest =>
      by_cases hadm : Admits t first
      · exact .inr ⟨t, first, rest, ht, htuples, hadm⟩
      · exact .inl (((insertTuples_cases hrun).2.2 first rest htuples).2 hadm)

/-- An `INSERT` that stores a row and fails. -/
theorem partialInsert_of_fails {stmt : InsertStmt} {t t' : Table} {n : Nat} {e : Bytes}
    (hparse : parseSql sql = .ok (.ok (.insert stmt)))
    (ht : ex.tables.lookup (Bytes.toUpper stmt.tableName) = some t)
    (hrun : Executor.insertTuples now stmt.batchValues t 0 = .ok (t', n, some e))
    (hstores : StoresRow ex stmt) : PartialInsert ex sql := by
  obtain ⟨t₂, first, rest, ht₂, htuples, hadm⟩ := hstores
  obtain rfl := Option.some.inj (ht.symm.trans ht₂)
  refine ⟨stmt, t, first, rest, hparse, ht, htuples, hadm, ?_⟩
  by_contra hgood
  have hall : ∀ rowVals ∈ stmt.batchValues, Admits t rowVals := by
    rw [htuples, List.forall_mem_cons]
    exact ⟨hadm, fun rowVals hmem => by_contra fun hbad => hgood ⟨rowVals, hmem, hbad⟩⟩
  exact absurd ((insertTuples_cases hrun).1.mpr hall) nofun

/-- The answers that are still right after the tuples went in: all that are
not dropped. -/
theorem Alike.inserted {stmt : InsertStmt} {t t' : Table} {n : Nat} {e : Option Bytes}
    (h : Alike now seen ex ideal) (hsafe : CacheSafe seen ex sql)
    (hparse : parseSql sql = .ok (.ok (.insert stmt)))
    (ht : ex.tables.lookup (Bytes.toUpper stmt.tableName) = some t)
    (hrun : Executor.insertTuples now stmt.batchValues t 0 = .ok (t', n, e)) :
    Keeps (fun key r => (e = none → takenToRead stmt.tableName key = false) →
      Answers now (seen ++ [sql]) (ex.tables.insert (Bytes.toUpper stmt.tableName) t') key r)
      ex.cache := by
  refine h.answers.imp fun key r hkept ha hdrop => ha.step ?_
  intro text sel hseen hkey hquery _ name hname
  by_cases hn : name = Bytes.toUpper stmt.tableName
  · subst hn
    rw [Finmap.lookup_insert, ht, Option.some.injEq]
    refine (insertTuples_stores ht hrun).resolve_right fun hstores => ?_
    have hdropped := hsafe.insert stmt hparse hstores text sel ⟨hseen, hquery, hkey ▸ hkept⟩ hname
    cases e with
    | none =>
        rw [hkey, hdrop rfl] at hdropped
        exact absurd hdropped.1 nofun
    | some e => exact hdropped.2 (partialInsert_of_fails hparse ht hrun hstores)
  · exact Finmap.lookup_insert_of_ne _ hn

theorem insert_alike {stmt : InsertStmt} (h : Alike now seen ex ideal)
    (hsafe : CacheSafe seen ex sql) (hparse : parseSql sql = .ok (.ok (.insert stmt))) :
    Outcome.Matches (Same now (seen ++ [sql])) (ex.execInsert now stmt)
      (ideal.execInsert now stmt) := by
  rw [Executor.execInsert, Executor.execInsert, h.tables]
  cases ht : ex.tables.lookup (Bytes.toUpper stmt.tableName) with
  | none => exact ⟨h.more, rfl⟩
  | some t =>
      dsimp only
      cases hrun : Executor.insertTuples now stmt.batchValues t 0 with
      | error fault => rfl
      | ok x =>
          obtain ⟨t', n, e⟩ := x
          have hkeep := h.inserted hsafe hparse ht hrun
          cases e with
          | some e => exact ⟨⟨rfl, h.empty, hkeep.imp fun _ _ _ ha => ha (by simp)⟩, rfl⟩
          | none =>
              obtain ⟨cache, hinv, hcache⟩ := hkeep.invalidateTable (Bytes.toUpper stmt.tableName)
              have hnothing : ideal.cache.invalidateTable (Bytes.toUpper stmt.tableName) =
                  .ok ideal.cache := by
                rw [h.empty]
                rfl
              simp only [Outcome.bind_ok, hinv, hnothing]
              refine ⟨⟨rfl, h.empty, hcache.imp fun key r _ ha => ha.2 fun _ => ?_⟩, rfl⟩
              rw [← ha.1, takenToRead, takenToRead, Bytes.toUpper_idem]

theorem executeSql_alike (h : Alike now seen ex ideal) (hsafe : CacheSafe seen ex sql) :
    Outcome.Matches (Same now (seen ++ [sql])) (ex.executeSql now sql)
      (executeUncached now ideal sql) := by
  rw [Executor.executeSql, executeUncached]
  cases hparse : parseSql sql with
  | error fault => rfl
  | ok parsed =>
      cases parsed with
      | error e => exact ⟨h.more, rfl⟩
      | ok stmt =>
          cases stmt with
          | createTable stmt => exact create_alike h
          | insert stmt => exact insert_alike h hsafe hparse
          | select sel => exact select_alike h hsafe hparse

/-! ## Texts that are safe whatever the state -/

theorem cacheSafe_create {stmt : CreateTableStmt}
    (h : parseSql sql = .ok (.ok (.createTable stmt))) : CacheSafe seen ex sql := by
  refine ⟨fun sel h' => ?_, fun stmt' h' => ?_⟩
  · exact absurd (h.symm.trans h') (by simp)
  · exact absurd (h.symm.trans h') (by simp)

theorem cacheSafe_select {sel : SelectStmt} (h : parseSql sql = .ok (.ok (.select sel)))
    (hseen : ∀ text ∈ seen, ∀ sel', parseSql text = .ok (.ok (.select sel')) →
      LRUCache.normalize text = LRUCache.normalize sql → upperSelect sel' = upperSelect sel) :
    CacheSafe seen ex sql := by
  refine ⟨fun sel₂ h₂ text sel' hc hkey => ?_, fun stmt h' => ?_⟩
  · obtain rfl : sel = sel₂ := by simpa using h.symm.trans h₂
    exact hseen text hc.seen sel' hc.query hkey
  · exact absurd (h.symm.trans h') (by simp)

/-- One tuple at a time, and queries whose texts name the table. -/
theorem cacheSafe_insert {stmt : InsertStmt} (h : parseSql sql = .ok (.ok (.insert stmt)))
    (hone : stmt.batchValues.length ≤ 1)
    (hseen : ∀ text ∈ seen, ∀ sel, parseSql text = .ok (.ok (.select sel)) →
      takenToRead stmt.tableName (LRUCache.normalize text)) : CacheSafe seen ex sql := by
  refine ⟨fun sel h' => ?_, fun stmt₂ h₂ _ text sel hc _ => ?_⟩
  · exact absurd (h.symm.trans h') (by simp)
  · obtain rfl : stmt = stmt₂ := by simpa using h.symm.trans h₂
    refine ⟨hseen text hc.seen sel hc.query, ?_⟩
    intro ⟨stmt₃, _, first, rest, h₃, _, htuples, _, rowVals, hmem, _⟩
    obtain rfl : stmt = stmt₃ := by simpa using h.symm.trans h₃
    rw [htuples, List.length_cons] at hone
    rw [List.length_eq_zero_iff.mp (Nat.le_zero.mp (Nat.le_of_succ_le_succ hone))] at hmem
    exact absurd hmem (by simp)

/-! ## Runs -/

/-- A run whose texts are all safe answers like one without a cache. -/
theorem runAll_uncached (now : Int64) {sqls : List Bytes}
    (hsafe : Actions.Along (fun ex sql => ex.executeSql now sql) CacheSafe [] Executor.new sqls) :
    Outcome.Matches (fun x y => x.1.tables = y.1.tables ∧ x.2 = y.2)
      (Actions.runAll (fun ex sql => ex.executeSql now sql) Executor.new sqls)
      (Actions.runAll (executeUncached now) Executor.new sqls) := by
  have hstart : Alike now [] Executor.new Executor.new := ⟨rfl, rfl, keeps_new⟩
  have hrun := Actions.runAll_matches (fun _ _ _ _ h hsafe => executeSql_alike h hsafe) hstart hsafe
  exact Outcome.Matches.imp hrun fun x y hxy => ⟨hxy.1.tables.symm, hxy.2⟩

end Steps

section Runs

attribute [local instance] noDoubles

/-- A query, a row, and the query again in another spelling. -/
def respelled : List Bytes :=
  [Bytes.lit "CREATE TABLE t (id INT)", Bytes.lit "SELECT * FROM t",
    Bytes.lit "INSERT INTO t VALUES (1)", Bytes.lit "select  * from T;"]

theorem runAll_uncached_respelled : ∃ x y,
    Actions.runAll (fun ex sql => ex.executeSql 0 sql) Executor.new respelled = .ok x ∧
    Actions.runAll (executeUncached 0) Executor.new respelled = .ok y ∧
    x.2 = y.2 ∧ x.2.map (·.rows) = [[], [], [], [[.int 1]]] := by
  have hcreate : parseSql (Bytes.lit "CREATE TABLE t (id INT)") =
      .ok (.ok (.createTable ⟨Bytes.lit "t", [⟨Bytes.lit "id", Bytes.lit "INT", 255⟩]⟩)) := by
    decide +kernel
  have hselect : parseSql (Bytes.lit "SELECT * FROM t") =
      .ok (.ok (.select ⟨Bytes.lit "t", [], true, none, none⟩)) := by
    decide +kernel
  have hinsert : parseSql (Bytes.lit "INSERT INTO t VALUES (1)") =
      .ok (.ok (.insert ⟨Bytes.lit "t", [[Bytes.lit "1"]]⟩)) := by
    decide +kernel
  have hagain : parseSql (Bytes.lit "select  * from T;") =
      .ok (.ok (.select ⟨Bytes.lit "T", [], true, none, none⟩)) := by
    decide +kernel
  have hsafe : Actions.Along (fun ex sql => ex.executeSql 0 sql) CacheSafe [] Executor.new
      respelled := by
    refine ⟨cacheSafe_create hcreate, fun _ _ _ => ⟨cacheSafe_select hselect ?_,
      fun _ _ _ => ⟨cacheSafe_insert hinsert (by decide) ?_,
        fun _ _ _ => ⟨cacheSafe_select hagain ?_, fun _ _ _ => trivial⟩⟩⟩⟩
    · simp [hcreate]
    · simp only [List.nil_append, List.cons_append, List.forall_mem_cons, hcreate, hselect]
      refine ⟨nofun, fun _ _ => by decide, nofun⟩
    · simp only [List.nil_append, List.cons_append, List.forall_mem_cons, hcreate, hselect, hinsert]
      refine ⟨nofun, fun sel h _ => ?_, nofun, nofun⟩
      obtain rfl : _ = sel := by simpa using h
      decide
  have hrun : (Actions.runAll (fun ex sql => ex.executeSql 0 sql) Executor.new respelled).map
      (fun x => x.2.map (·.rows)) = .ok [[], [], [], [[.int 1]]] := by
    decide +kernel
  obtain ⟨x, hx, hrows⟩ := Outcome.map_eq_ok.mp hrun
  obtain ⟨y, hy, -, heq⟩ := (runAll_uncached 0 hsafe).ok_left hx
  exact ⟨x, y, hx, hy, heq, hrows⟩

/-- A query, an `INSERT` with one good tuple and one bad, and the query again. -/
def halfInserted : List Bytes :=
  [Bytes.lit "CREATE TABLE t (id INT)", Bytes.lit "SELECT * FROM t",
    Bytes.lit "INSERT INTO t VALUES (1), (x)", Bytes.lit "SELECT * FROM t"]

/-- The `INSERT` fails at its second tuple, keeps the first, and leaves the
answer from before in the cache. -/
theorem stale_answer_after_half_insert : ∃ x y,
    Actions.runAll (fun ex sql => ex.executeSql 0 sql) Executor.new halfInserted = .ok x ∧
    Actions.runAll (executeUncached 0) Executor.new halfInserted = .ok y ∧
    x.2.map (·.rows) = [[], [], [], []] ∧ y.2.map (·.rows) = [[], [], [], [[.int 1]]] := by
  have hrun : (do
      let x ← Actions.runAll (fun ex sql => ex.executeSql 0 sql) Executor.new halfInserted
      let y ← Actions.runAll (executeUncached 0) Executor.new halfInserted
      .ok (x.2.map (·.rows), y.2.map (·.rows)) : Outcome _) =
        .ok ([[], [], [], []], [[], [], [], [[.int 1]]]) := by
    decide +kernel
  obtain ⟨x, hx, hrun⟩ := Outcome.bind_eq_ok.mp hrun
  obtain ⟨y, hy, hrun⟩ := Outcome.bind_eq_ok.mp hrun
  simp only [Except.ok.injEq, Prod.mk.injEq] at hrun
  exact ⟨x, y, hx, hy, hrun⟩

end Runs

end FlexQL.Proofs
