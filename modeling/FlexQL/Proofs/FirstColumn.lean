import FlexQL.Proofs.Births
import FlexQL.Proofs.Declared

/-!
# The first column of a table

The constructor of a table reads the type of the first column, and an insert
the first value of its row. Nothing checks that there is one: neither the
parser, for which a list of columns may be empty, nor the loader, which
believes the count in the file.
-/

namespace FlexQL.Proofs

open Lib FlexQL.Ref FlexQL.Spec

theorem length_addColumns (s : Schema) (cols : List ColumnDef) :
    (s.addColumns cols).columns.length = s.columns.length + cols.length := by
  induction cols generalizing s with
  | nil => rfl
  | cons c cols ih =>
      refine (ih _).trans ?_
      show (s.columns ++ [_]).length + cols.length = _
      rw [List.length_append, List.length_singleton, List.length_cons]
      omega

theorem hasKey_iff {s : Schema} (h : Built s) : HasKey s ↔ s.columns ≠ [] := by
  rw [HasKey, h.pkIndex, List.length_pos_iff]

/-- A table with a first column only takes rows with a first value. -/
theorem keyInRange_of_hasKey {t : Table} (h : HasKey t.schema) : KeyInRange t := by
  refine ⟨h, fun row hrow => ?_⟩
  rw [← (validateRow_eq_none.mp hrow).length_eq]
  exact h

theorem Settled.hasKey {t : Table} (h : Settled t) : HasKey t.schema := by
  obtain ⟨cols, hcols⟩ := h.built
  rw [hasKey_iff (hcols ▸ built_empty.addColumns cols)]
  exact h.pk

/-! ## Statements -/

section Statements

variable {ex : Executor} {sql : Bytes} {schema : Schema}

theorem constructs_eq_some :
    constructs ex sql = some schema ↔ ∃ stmt, parseSql sql = .ok (.ok (.createTable stmt)) ∧
      ex.tables.lookup (Bytes.toUpper stmt.tableName) = none ∧
      Executor.buildSchema Schema.empty stmt.columns = .ok schema := by
  rw [constructs]
  split
  · next stmt hparse =>
      have hstmt : ∀ stmt', parseSql sql = .ok (.ok (.createTable stmt')) ↔ stmt' = stmt := by
        simp [hparse, eq_comm]
      simp only [hstmt, exists_eq_left]
      cases hlook : ex.tables.lookup (Bytes.toUpper stmt.tableName) with
      | some t => simp
      | none =>
          cases Executor.buildSchema Schema.empty stmt.columns <;> simp [Except.toOption]
  · next hother => exact iff_of_false nofun fun ⟨stmt, hparse, _⟩ => hother stmt hparse

/-- A statement constructs a table without a first column just when it is a
`CREATE TABLE` without columns. -/
theorem constructs_hasKey_iff :
    (∀ schema, constructs ex sql = some schema → HasKey schema) ↔ ¬ CreatesEmpty ex sql := by
  constructor
  · rintro h ⟨stmt, hparse, hnil, hfree⟩
    have hkey := h Schema.empty (constructs_eq_some.mpr ⟨stmt, hparse, hfree, by rw [hnil]; rfl⟩)
    exact absurd hkey (by decide)
  · intro h schema hcons
    obtain ⟨stmt, hparse, hfree, hschema⟩ := constructs_eq_some.mp hcons
    obtain ⟨defs, rfl⟩ := buildSchema_built hschema
    rw [hasKey_iff (built_empty.addColumns defs)]
    intro hnil
    have hlen : 0 = 0 + stmt.columns.length := by
      have hlen := buildSchema_length hschema
      rwa [hnil] at hlen
    exact h ⟨stmt, hparse, List.length_eq_zero_iff.mp (by omega), hfree⟩

variable [FloatLib]

/-- What is constructed without a first column is undefined. -/
theorem executeSql_constructs (h : constructs ex sql = some schema) (hkey : ¬ HasKey schema)
    (now : Int64) : ex.executeSql now sql = .error .undefined := by
  obtain ⟨stmt, hparse, hfree, hschema⟩ := constructs_eq_some.mp h
  have hnew : Table.new (Bytes.toUpper stmt.tableName) schema defaultTtlSeconds =
      .error .undefined := by
    rw [Table.new, Schema.pkColumn, List.getElem?_eq_none_iff.mpr (Nat.not_lt.mp hkey)]
    rfl
  rw [Executor.executeSql, hparse]
  show ex.execCreateTable stmt = _
  simp only [Executor.execCreateTable, hfree, Option.isSome_none, Bool.false_eq_true, if_false,
    hschema, hnew]
  rfl

end Statements

/-! ## Snapshots -/

section Snapshots

variable {now : Int64} {s s' : Bytes} {name : Bytes} {schema schema' : Schema} {n : Nat}

theorem readColumns_built (h : Snapshot.readColumns name n schema s = .ok (schema', s')) :
    ∃ cols : List ColumnDef, cols.length = n ∧ schema' = schema.addColumns cols := by
  induction n generalizing schema s with
  | zero =>
      obtain ⟨rfl, -⟩ := Prod.mk.inj (Except.ok.inj h)
      exact ⟨[], rfl, rfl⟩
  | succ n ih =>
      obtain ⟨⟨c, s₁⟩, -, h⟩ := Outcome.bind_eq_ok.mp h
      obtain ⟨cols, hlen, rfl⟩ := ih h
      exact ⟨c :: cols, congrArg Nat.succ hlen, rfl⟩

theorem orFail_eq_ok {α : Type} {r : Reader α} {error : Bytes} {p : α × Bytes} :
    Snapshot.orFail r error s = .ok p ↔ r s = some p := by
  rw [Snapshot.orFail]
  cases r s <;> simp

/-- The schema of a table has as many columns as its count says. -/
theorem readSchema_built (h : Snapshot.readSchema s = .ok ((name, schema), s')) :
    ∃ cols : List ColumnDef, columnCount s = some cols.length ∧
      schema = Schema.empty.addColumns cols := by
  obtain ⟨⟨name', s₁⟩, hname, h⟩ := Outcome.bind_eq_ok.mp h
  obtain ⟨⟨n, s₂⟩, hn, h⟩ := Outcome.bind_eq_ok.mp h
  obtain ⟨⟨schema', s₃⟩, hcols, h⟩ := Outcome.bind_eq_ok.mp h
  obtain ⟨hpair, -⟩ := Prod.mk.inj (Except.ok.inj h)
  obtain ⟨-, rfl⟩ := Prod.mk.inj hpair
  obtain ⟨cols, rfl, rfl⟩ := readColumns_built hcols
  refine ⟨cols, ?_, rfl⟩
  rw [columnCount, Reader.andThen, orFail_eq_ok.mp hname, Option.bind_some, orFail_eq_ok.mp hn]
  rfl

/-- A count of zero leads to a schema without columns. -/
theorem readSchema_empty (h : columnCount s = some 0) :
    ∃ name s', Snapshot.readSchema s = .ok ((name, Schema.empty), s') := by
  obtain ⟨⟨n, s₂⟩, hread, hn⟩ := Option.map_eq_some_iff.mp h
  obtain rfl : n = 0 := hn
  obtain ⟨⟨name, s₁⟩, hname, hcount⟩ := Option.bind_eq_some_iff.mp hread
  refine ⟨name, s₂, ?_⟩
  simp only [Snapshot.readSchema, orFail_eq_ok.mpr hname, Outcome.bind_ok,
    orFail_eq_ok.mpr hcount, Snapshot.readColumns]

/-- The loader constructs a table without a first column just when a count is
zero. -/
theorem readSchema_hasKey_iff :
    (∀ name schema s', Snapshot.readSchema s = .ok ((name, schema), s') → HasKey schema) ↔
      columnCount s ≠ some 0 := by
  constructor
  · intro h hzero
    obtain ⟨name, s', hread⟩ := readSchema_empty hzero
    exact absurd (h _ _ _ hread) (by decide)
  · intro hcount name schema s' hread
    obtain ⟨cols, hlen, rfl⟩ := readSchema_built hread
    have hpos : cols.length ≠ 0 := fun h => hcount (h ▸ hlen)
    rw [HasKey, (built_empty.addColumns cols).pkIndex, length_addColumns]
    exact Nat.pos_of_ne_zero fun h => hpos (Nat.add_eq_zero_iff.mp h).2

theorem loadTable_undefined (h : columnCount s = some 0) (now : Int64) :
    Snapshot.loadTable now s = .error .undefined := by
  obtain ⟨name, s', hread⟩ := readSchema_empty h
  rw [Snapshot.loadTable, hread]
  rfl

/-- From a table without columns on, the load is undefined. -/
theorem loadTables_undefined {tables : Finmap fun _ : Bytes => Table}
    (h : ∃ s' ∈ tableStarts now n s, columnCount s' = some 0) :
    Snapshot.loadTables now n tables s = .error .undefined := by
  induction n generalizing s tables with
  | zero =>
      obtain ⟨s', hs', -⟩ := h
      exact absurd hs' List.not_mem_nil
  | succ n ih =>
      obtain ⟨s', hs', hzero⟩ := h
      rw [Snapshot.loadTables]
      rcases List.mem_cons.mp hs' with rfl | hs'
      · rw [loadTable_undefined hzero]
        rfl
      · split at hs'
        · next p s₁ hload =>
            rw [hload, Outcome.bind_ok]
            exact ih ⟨s', hs', hzero⟩
        · exact absurd hs' List.not_mem_nil

theorem load_undefined {file : Bytes} (h : ∃ s ∈ tablesReached now file, columnCount s = some 0) :
    Snapshot.load now file = .error .undefined := by
  rw [tablesReached] at h
  rw [Snapshot.load]
  split at h
  · obtain ⟨s, hs, -⟩ := h
    exact absurd hs List.not_mem_nil
  · next lsn n s hheader =>
      simp only [hheader, loadTables_undefined h]
      rfl

/-! What the constructor gives a table and an insertion keeps, every table has
that is loaded. -/

section Keeps

variable {Q : Table → Prop}

theorem loadRows_keeps
    (hins : ∀ t row t' e, Q t → t.insert now row = .ok (t', e) → Q t') {t t' : Table} (ht : Q t)
    (h : Snapshot.loadRows now name n t s = .ok (.ok (t', s'))) : Q t' := by
  induction n generalizing t s with
  | zero =>
      obtain ⟨rfl, -⟩ := Prod.mk.inj (Except.ok.inj (Except.ok.inj h))
      exact ht
  | succ n ih =>
      rw [Snapshot.loadRows] at h
      split at h
      · exact absurd h nofun
      · obtain ⟨⟨t₁, e⟩, hrow, h⟩ := Outcome.bind_eq_ok.mp h
        cases e with
        | some e => exact absurd h nofun
        | none => exact ih (hins _ _ _ _ ht hrow) h

theorem loadTable_keeps
    (hnew : ∀ name cols t, Table.new name (Schema.empty.addColumns cols) defaultTtlSeconds = .ok t →
      Q t)
    (hins : ∀ t row t' e, Q t → t.insert now row = .ok (t', e) → Q t') {t : Table}
    (h : Snapshot.loadTable now s = .ok (.ok ((name, t), s'))) : Q t := by
  rw [Snapshot.loadTable] at h
  split at h
  · exact absurd h nofun
  · next name' schema s₁ hread =>
      obtain ⟨t₀, htable, h⟩ := Outcome.bind_eq_ok.mp h
      obtain ⟨cols, -, hcols⟩ := readSchema_built hread
      split at h
      · exact absurd h nofun
      · next m s₂ _ =>
          obtain ⟨rows, hrows, h⟩ := Outcome.bind_eq_ok.mp h
          cases rows with
          | error e => exact absurd h nofun
          | ok p =>
              obtain ⟨hpair, -⟩ := Prod.mk.inj (Except.ok.inj (Except.ok.inj h))
              obtain ⟨-, rfl⟩ := Prod.mk.inj hpair
              exact loadRows_keeps hins (hnew _ cols _ (hcols ▸ htable)) hrows

theorem loadTables_keeps
    (hnew : ∀ name cols t, Table.new name (Schema.empty.addColumns cols) defaultTtlSeconds = .ok t →
      Q t)
    (hins : ∀ t row t' e, Q t → t.insert now row = .ok (t', e) → Q t')
    {tables tables' : Finmap fun _ : Bytes => Table}
    (hall : ∀ name t, tables.lookup name = some t → Q t)
    (h : Snapshot.loadTables now n tables s = .ok (.ok tables')) :
    ∀ name t, tables'.lookup name = some t → Q t := by
  induction n generalizing tables s with
  | zero =>
      obtain rfl := Except.ok.inj (Except.ok.inj h)
      exact hall
  | succ n ih =>
      obtain ⟨res, hload, h⟩ := Outcome.bind_eq_ok.mp h
      cases res with
      | error e => exact absurd h nofun
      | ok p =>
          refine ih (fun name t ht => ?_) h
          by_cases hname : name = p.1.1
          · rw [hname, Finmap.lookup_insert] at ht
            obtain rfl := Option.some.inj ht
            exact loadTable_keeps hnew hins hload
          · rw [Finmap.lookup_insert_of_ne _ hname] at ht
            exact hall name t ht

theorem load_keeps
    (hnew : ∀ name cols t, Table.new name (Schema.empty.addColumns cols) defaultTtlSeconds = .ok t →
      Q t)
    (hins : ∀ t row t' e, Q t → t.insert now row = .ok (t', e) → Q t') {file : Bytes}
    {res : Snapshot.LoadResult} (h : Snapshot.load now file = .ok (.ok res)) :
    ∀ name t, res.tables.lookup name = some t → Q t := by
  rw [Snapshot.load] at h
  split at h
  · exact absurd h nofun
  · obtain ⟨loaded, hload, h⟩ := Outcome.bind_eq_ok.mp h
    cases loaded with
    | error e => exact absurd h nofun
    | ok tables =>
        obtain rfl := Except.ok.inj (Except.ok.inj h)
        exact loadTables_keeps hnew hins (fun name t ht => absurd ht (by simp)) hload

end Keeps

theorem load_settled {file : Bytes} {res : Snapshot.LoadResult}
    (h : Snapshot.load now file = .ok (.ok res)) :
    ∀ name t, res.tables.lookup name = some t → Settled t :=
  load_keeps (fun _ cols _ hnew => settled_new ⟨cols, rfl⟩ hnew)
    (fun _ _ _ _ ht hins => ht.insert hins) h

end Snapshots

/-! ## Both -/

section Both

variable [FloatLib] {ex : Executor}

end Both

section Runs

attribute [local instance] noDoubles

/-- One table `T` without columns and rows, as it would be saved. -/
def emptyTableFile : Bytes :=
  Snapshot.writeHeader 0 1 ++ Snapshot.writeTable (Bytes.lit "T") Schema.empty []

end Runs

end FlexQL.Proofs
