import FlexQL.Spec.Executor

/-!
# What a statement does to the tables

Only `CREATE TABLE` and `INSERT` touch the tables. An `INSERT` goes through
its tuples in order and stops at the first one the table does not take, so
what it leaves behind depends on where that is.
-/

namespace FlexQL.Proofs

open Lib FlexQL.Ref FlexQL.Spec

/-! ## Tables -/

theorem allocate_cases {a a' : Arena} {n : Nat} {p : Option Ptr}
    (h : a.allocate n = .ok (a', p)) : (n = 0 ∧ a' = a ∧ p = none) ∨ (n ≠ 0 ∧ p ≠ none) := by
  rw [Arena.allocate] at h
  split at h
  · next hn =>
      obtain ⟨rfl, rfl⟩ := Prod.mk.inj (Except.ok.inj h)
      exact .inl ⟨hn, rfl, rfl⟩
  · next hn =>
      obtain ⟨c, _, h⟩ := Outcome.bind_eq_ok.mp h
      obtain ⟨_, rfl⟩ := Prod.mk.inj (Except.ok.inj h)
      exact .inr ⟨hn, by simp⟩

theorem writeRow_frame {t t' : Table} {p : Ptr} {vs : Row} {expiry : Int64}
    (h : t.writeRow p vs expiry = .ok t') : ∃ a, t' = { t with arena := a } := by
  obtain ⟨a₁, _, h⟩ := Outcome.bind_eq_ok.mp h
  obtain ⟨a₂, _, h⟩ := Outcome.bind_eq_ok.mp h
  obtain ⟨a₃, _, h⟩ := Outcome.bind_eq_ok.mp h
  exact ⟨a₃, (Except.ok.inj h).symm⟩

/-- A call of `insert` that returned: it stored a row, or changed nothing. -/
theorem insert_cases {t t' : Table} {now : Int64} {row : Row} {e : Option Bytes}
    (h : t.insert now row = .ok (t', e)) :
    (e ≠ none ∧ t' = t ∧ (t.schema.validateRow row = none → t.cachedRowSize = 0)) ∨
    (e = none ∧ t.schema.validateRow row = none ∧ t.cachedRowSize ≠ 0 ∧
      t'.rows.length = t.rows.length + 1 ∧ t'.schema = t.schema ∧
      t'.cachedRowSize = t.cachedRowSize ∧ t'.ttlSeconds = t.ttlSeconds) := by
  rw [Table.insert] at h
  cases hv : t.schema.validateRow row with
  | some msg =>
      rw [hv] at h
      obtain ⟨rfl, rfl⟩ := Prod.mk.inj (Except.ok.inj h)
      exact .inl ⟨by simp, rfl, by simp⟩
  | none =>
      rw [hv] at h
      obtain ⟨⟨a, ptr⟩, halloc, h⟩ := Outcome.bind_eq_ok.mp h
      rcases allocate_cases halloc with ⟨hzero, rfl, rfl⟩ | ⟨hpos, hptr⟩
      · obtain ⟨rfl, rfl⟩ := Prod.mk.inj (Except.ok.inj h)
        exact .inl ⟨by simp, rfl, fun _ => UInt32.toNat_inj.mp hzero⟩
      · obtain ⟨p, rfl⟩ := Option.ne_none_iff_exists'.mp hptr
        obtain ⟨t₁, hwrite, h⟩ := Outcome.bind_eq_ok.mp h
        obtain ⟨a', rfl⟩ := writeRow_frame hwrite
        split at h
        · exact absurd h (by simp)
        · obtain ⟨index, _, h⟩ := Outcome.bind_eq_ok.mp h
          obtain ⟨rfl, rfl⟩ := Prod.mk.inj (Except.ok.inj h)
          refine .inr ⟨rfl, rfl, fun hz => hpos (by rw [hz]; rfl), ?_, rfl, rfl, rfl⟩
          rw [List.length_append]
          rfl

/-- Storing the value that is there changes nothing. -/
theorem insert_lookup_self {m : Finmap fun _ : Bytes => Table} {k : Bytes} {t : Table}
    (h : m.lookup k = some t) : m.insert k t = m := by
  refine Finmap.ext_lookup fun k' => ?_
  by_cases hk : k' = k
  · rw [hk, Finmap.lookup_insert, h]
  · rw [Finmap.lookup_insert_of_ne _ hk]

theorem execCreateTable_cases {ex ex' : Executor} {r : QueryResult} {stmt : CreateTableStmt}
    (h : ex.execCreateTable stmt = .ok (ex', r)) :
    (r.success = false ∧ ex' = ex) ∨
      (r.success = true ∧ ex.tables.lookup (Bytes.toUpper stmt.tableName) = none ∧
        ∃ schema table, Executor.buildSchema Schema.empty stmt.columns = .ok schema ∧
          Table.new (Bytes.toUpper stmt.tableName) schema defaultTtlSeconds = .ok table ∧
          ex' = { ex with tables := ex.tables.insert (Bytes.toUpper stmt.tableName) table }) := by
  rw [Executor.execCreateTable] at h
  split at h
  · obtain ⟨rfl, rfl⟩ := Prod.mk.inj (Except.ok.inj h)
    exact .inl ⟨rfl, rfl⟩
  · next hnone =>
      split at h
      · obtain ⟨rfl, rfl⟩ := Prod.mk.inj (Except.ok.inj h)
        exact .inl ⟨rfl, rfl⟩
      · next schema hschema =>
          obtain ⟨table, htable, h⟩ := Outcome.bind_eq_ok.mp h
          obtain ⟨rfl, rfl⟩ := Prod.mk.inj (Except.ok.inj h)
          exact .inr ⟨rfl, by simpa using hnone, schema, table, hschema, htable, rfl⟩

/-! ## Tuples -/

section Tuples

variable [FloatLib]

theorem admits_congr {t t' : Table} (hs : t'.schema = t.schema)
    (hr : t'.cachedRowSize = t.cachedRowSize) (rowVals : List Bytes) :
    Admits t' rowVals ↔ Admits t rowVals := by
  rw [Admits, Admits, hs, hr]

/-- The loop over the tuples of an `INSERT` that returned. -/
theorem insertTuples_cases {now : Int64} {tuples : List (List Bytes)} {t t' : Table} {n n' : Nat}
    {e : Option Bytes} (h : Executor.insertTuples now tuples t n = .ok (t', n', e)) :
    (e = none ↔ ∀ rowVals ∈ tuples, Admits t rowVals) ∧ t.rows.length ≤ t'.rows.length ∧
      ∀ first rest, tuples = first :: rest →
        (Admits t first → t.rows.length < t'.rows.length) ∧ (¬ Admits t first → t' = t) := by
  induction tuples generalizing t n with
  | nil =>
      simp only [Executor.insertTuples, Except.ok.injEq, Prod.mk.injEq] at h
      obtain ⟨rfl, rfl, rfl⟩ := h
      exact ⟨by simp, Nat.le_refl _, by simp⟩
  | cons first rest ih =>
      rw [Executor.insertTuples] at h
      cases hp : Executor.parseTuple t.schema first with
      | error msg =>
          rw [hp] at h
          simp only [Except.ok.injEq, Prod.mk.injEq] at h
          obtain ⟨rfl, rfl, rfl⟩ := h
          have hno : ¬ Admits t first := by
            intro ⟨row, hrow, _⟩
            rw [hp] at hrow
            exact absurd hrow (by simp)
          refine ⟨by simp [hno], Nat.le_refl _, fun f r hfr => ?_⟩
          obtain ⟨rfl, rfl⟩ := List.cons.inj hfr
          exact ⟨fun ha => absurd ha hno, fun _ => rfl⟩
      | ok row =>
          rw [hp] at h
          obtain ⟨⟨t₁, e₁⟩, hins, h⟩ := Outcome.bind_eq_ok.mp h
          have hadmits : Admits t first ↔
              t.schema.validateRow row = none ∧ t.cachedRowSize ≠ 0 := by
            constructor
            · intro ⟨row', hrow', hok⟩
              obtain rfl := Except.ok.inj (hp.symm.trans hrow')
              exact hok
            · exact fun hok => ⟨row, hp, hok⟩
          rcases insert_cases hins with ⟨he, rfl, hbad⟩ | ⟨rfl, hv, hsize, hlen, hs, hr, -⟩
          · obtain ⟨msg, rfl⟩ := Option.ne_none_iff_exists'.mp he
            simp only [Except.ok.injEq, Prod.mk.injEq] at h
            obtain ⟨rfl, rfl, rfl⟩ := h
            have hno : ¬ Admits t₁ first := fun ha =>
              (hadmits.mp ha).2 (hbad (hadmits.mp ha).1)
            refine ⟨by simp [hno], Nat.le_refl _, fun f r hfr => ?_⟩
            obtain ⟨rfl, rfl⟩ := List.cons.inj hfr
            exact ⟨fun ha => absurd ha hno, fun _ => rfl⟩
          · obtain ⟨hall, hle, _⟩ := ih h
            have hyes : Admits t first := hadmits.mpr ⟨hv, hsize⟩
            refine ⟨?_, by omega, fun f r hfr => ?_⟩
            · rw [hall, List.forall_mem_cons]
              simp only [admits_congr hs hr, hyes, true_and]
            · obtain ⟨rfl, rfl⟩ := List.cons.inj hfr
              exact ⟨fun _ => by omega, fun hno => absurd hyes hno⟩

end Tuples

/-! ## Statements -/

section Statements

variable [FloatLib] {ex ex' : Executor} {now : Int64} {r : QueryResult}

theorem execSelect_tables {stmt : SelectStmt} {rawSql : Bytes}
    (h : ex.execSelect now stmt rawSql = .ok (ex', r)) : ex'.tables = ex.tables := by
  obtain ⟨⟨cache, cached⟩, _, h⟩ := Outcome.bind_eq_ok.mp h
  cases cached with
  | some c =>
      obtain ⟨rfl, _⟩ := Prod.mk.inj (Except.ok.inj h)
      rfl
  | none =>
      obtain ⟨answer, _, h⟩ := Outcome.bind_eq_ok.mp h
      cases answer with
      | error e =>
          obtain ⟨rfl, _⟩ := Prod.mk.inj (Except.ok.inj h)
          rfl
      | ok c =>
          obtain ⟨cache', _, h⟩ := Outcome.bind_eq_ok.mp h
          obtain ⟨rfl, _⟩ := Prod.mk.inj (Except.ok.inj h)
          rfl

theorem execInsert_cases {stmt : InsertStmt} (h : ex.execInsert now stmt = .ok (ex', r)) :
    (ex.tables.lookup (Bytes.toUpper stmt.tableName) = none ∧ r.success = false ∧ ex' = ex) ∨
      ∃ table table' n e, ex.tables.lookup (Bytes.toUpper stmt.tableName) = some table ∧
        Executor.insertTuples now stmt.batchValues table 0 = .ok (table', n, e) ∧
        ex'.tables = ex.tables.insert (Bytes.toUpper stmt.tableName) table' ∧
        (r.success = true ↔ e = none) := by
  rw [Executor.execInsert] at h
  split at h
  · next hnone =>
      obtain ⟨rfl, rfl⟩ := Prod.mk.inj (Except.ok.inj h)
      exact .inl ⟨hnone, rfl, rfl⟩
  · next table htable =>
      obtain ⟨⟨table', n, e⟩, hrun, h⟩ := Outcome.bind_eq_ok.mp h
      refine .inr ⟨table, table', n, e, htable, hrun, ?_⟩
      cases e with
      | some e =>
          obtain ⟨rfl, rfl⟩ := Prod.mk.inj (Except.ok.inj h)
          exact ⟨rfl, by simp [QueryResult.failure]⟩
      | none =>
          obtain ⟨cache, _, h⟩ := Outcome.bind_eq_ok.mp h
          obtain ⟨rfl, rfl⟩ := Prod.mk.inj (Except.ok.inj h)
          exact ⟨rfl, by simp [QueryResult.done]⟩

/-- An `INSERT` that returned without success left the tables alone exactly
when it did not store its first tuple. -/
theorem execInsert_failure_iff {stmt : InsertStmt} (h : ex.execInsert now stmt = .ok (ex', r)) :
    (r.success = false → ex'.tables = ex.tables) ↔
      ¬ ∃ table first rest, ex.tables.lookup (Bytes.toUpper stmt.tableName) = some table ∧
        stmt.batchValues = first :: rest ∧ Admits table first ∧
        ∃ rowVals ∈ rest, ¬ Admits table rowVals := by
  rcases execInsert_cases h with ⟨hnone, hr, rfl⟩ | ⟨table, table', n, e, htable, hrun, ht, hr⟩
  · refine iff_of_true (fun _ => rfl) ?_
    intro ⟨table, _, _, htable, _⟩
    rw [hnone] at htable
    exact absurd htable (by simp)
  · obtain ⟨hall, _, hfirst⟩ := insertTuples_cases hrun
    constructor
    · intro hkeep ⟨table₂, first, rest, htable₂, htuples, hadm, rowVals, hmem, hbad⟩
      obtain rfl := Option.some.inj (htable.symm.trans htable₂)
      have hfail : r.success = false := by
        rw [← Bool.not_eq_true, hr, hall, htuples]
        exact fun h => hbad (h rowVals (List.mem_cons_of_mem _ hmem))
      have hlook : ex'.tables.lookup (Bytes.toUpper stmt.tableName) = some table' := by
        rw [ht, Finmap.lookup_insert]
      rw [hkeep hfail, htable] at hlook
      have hgrow := (hfirst first rest htuples).1 hadm
      rw [Option.some.inj hlook] at hgrow
      exact Nat.lt_irrefl _ hgrow
    · intro hno hfail
      have hsame : table' = table := by
        cases htuples : stmt.batchValues with
        | nil =>
            rw [htuples] at hrun
            simp only [Executor.insertTuples, Except.ok.injEq, Prod.mk.injEq] at hrun
            exact hrun.1.symm
        | cons first rest =>
            by_cases hadm : Admits table first
            · -- an admitted first tuple means the failure came from a later one
              refine absurd ⟨table, first, rest, htable, htuples, hadm, ?_⟩ hno
              by_contra hgood
              rw [← Bool.not_eq_true, hr, hall, htuples, List.forall_mem_cons] at hfail
              exact hfail ⟨hadm, fun v hv => by
                by_contra hbad
                exact hgood ⟨v, hv, hbad⟩⟩
            · exact (hfirst first rest htuples).2 hadm
      rw [ht, hsame, insert_lookup_self htable]

/-- A call that returned without success left every table as it was exactly
when the text is not an `INSERT` that stopped behind its first tuple. -/
theorem executeSql_failure_unchanged_iff {sql : Bytes}
    (h : ex.executeSql now sql = .ok (ex', r)) :
    (r.success = false → ex'.tables = ex.tables) ↔ ¬ PartialInsert ex sql := by
  obtain ⟨parsed, hparse, h⟩ := Outcome.bind_eq_ok.mp h
  have hother : (∀ stmt, parsed ≠ .ok (.insert stmt)) → ¬ PartialInsert ex sql := by
    intro hne ⟨stmt, _, _, _, hins, _⟩
    exact hne stmt (Except.ok.inj (hparse.symm.trans hins))
  cases parsed with
  | error e =>
      obtain ⟨rfl, _⟩ := Prod.mk.inj (Except.ok.inj h)
      exact iff_of_true (fun _ => rfl) (hother (by simp))
  | ok stmt =>
      cases stmt with
      | createTable stmt =>
          refine iff_of_true (fun hfail => ?_) (hother (by simp))
          rcases execCreateTable_cases h with ⟨_, rfl⟩ | ⟨hok, _⟩
          · rfl
          · exact absurd hok (by simp [hfail])
      | select stmt => exact iff_of_true (fun _ => execSelect_tables h) (hother (by simp))
      | insert stmt =>
          rw [execInsert_failure_iff h]
          refine not_congr ⟨fun hpart => ?_, fun hpart => ?_⟩
          · obtain ⟨table, first, rest, hrest⟩ := hpart
            exact ⟨stmt, table, first, rest, hparse, hrest⟩
          · obtain ⟨stmt', table, first, rest, hins, hrest⟩ := hpart
            cases hparse.symm.trans hins
            exact ⟨table, first, rest, hrest⟩

end Statements

section Runs

attribute [local instance] noDoubles

theorem cell_toList {α : Type} {o : Option α} {x : α} (h : Executor.cell o.toList 0 = .ok x) :
    o = some x := by
  cases o with
  | none => exact absurd h (by simp [Executor.cell])
  | some y => exact congrArg some (Except.ok.inj h)

theorem executeSql_missing_table_unchanged :
    ∃ ex' r, Executor.new.executeSql 0 (Bytes.lit "INSERT INTO t VALUES (1)") = .ok (ex', r) ∧
      r.success = false ∧ ex'.tables = Executor.new.tables := by
  have hrun : Prod.snd <$> Executor.new.executeSql 0 (Bytes.lit "INSERT INTO t VALUES (1)")
      = .ok (.failure (Bytes.lit "Table not found: T")) := by decide +kernel
  obtain ⟨⟨ex', r⟩, hrun, rfl⟩ := Outcome.map_eq_ok.mp hrun
  refine ⟨ex', _, hrun, rfl, (executeSql_failure_unchanged_iff hrun).mpr ?_ rfl⟩
  intro ⟨_, _, _, _, _, hlook, _⟩
  exact absurd hlook (by simp [Executor.new])

/-- The second tuple is no integer: the statement fails and the first row
stays. -/
theorem executeSql_keeps_half_insert :
    ∃ ex ex' rs r t t', runAll 0 Executor.new [Bytes.lit "CREATE TABLE t (id INT)"] = .ok (ex, rs) ∧
      ex.executeSql 0 (Bytes.lit "INSERT INTO t VALUES (1), (x)") = .ok (ex', r) ∧
      r.success = false ∧ ex.tables.lookup (Bytes.lit "T") = some t ∧
      ex'.tables.lookup (Bytes.lit "T") = some t' ∧ t.scanAll 0 = .ok [] ∧
      t'.scanAll 0 = .ok [[.int 1]] ∧ t.rowCount = 0 ∧ t'.rowCount = 1 := by
  have hrun : (do
      let created ← runAll 0 Executor.new [Bytes.lit "CREATE TABLE t (id INT)"]
      let failed ← created.1.executeSql 0 (Bytes.lit "INSERT INTO t VALUES (1), (x)")
      let t ← Executor.cell (created.1.tables.lookup (Bytes.lit "T")).toList 0
      let t' ← Executor.cell (failed.1.tables.lookup (Bytes.lit "T")).toList 0
      let rows ← t.scanAll 0
      let rows' ← t'.scanAll 0
      .ok (failed.2.success, rows, rows', t.rowCount, t'.rowCount) : Outcome _)
        = .ok (false, [], [[.int 1]], 0, 1) := by decide +kernel
  obtain ⟨⟨ex, rs⟩, hcreate, hrun⟩ := Outcome.bind_eq_ok.mp hrun
  obtain ⟨⟨ex', r⟩, hinsert, hrun⟩ := Outcome.bind_eq_ok.mp hrun
  obtain ⟨t, ht, hrun⟩ := Outcome.bind_eq_ok.mp hrun
  obtain ⟨t', ht', hrun⟩ := Outcome.bind_eq_ok.mp hrun
  obtain ⟨rows, hrows, hrun⟩ := Outcome.bind_eq_ok.mp hrun
  obtain ⟨rows', hrows', hrun⟩ := Outcome.bind_eq_ok.mp hrun
  simp only [Except.ok.injEq, Prod.mk.injEq] at hrun
  obtain ⟨hr, rfl, rfl, hn, hn'⟩ := hrun
  exact ⟨ex, ex', rs, r, t, t', hcreate, hinsert, hr, cell_toList ht, cell_toList ht', hrows,
    hrows', hn, hn'⟩

end Runs

end FlexQL.Proofs
