import FlexQL.Proofs.Printer
import FlexQL.Proofs.Reach
import FlexQL.Proofs.Select
import FlexQL.Spec.Declared

/-!
# What `CREATE TABLE` makes of its columns

The schema is built from the declarations one by one, and nothing looks at the
whole: not at the sum of the sizes, not at a name that comes twice, not at the
digits of a length.
-/

namespace FlexQL.Proofs

open Lib FlexQL.Ref FlexQL.Spec

/-! ## The columns of the schema -/

theorem addColumn_maxLen (s : Schema) (name : Bytes) {type : DataType} (h : type ≠ .varchar)
    (m n : UInt16) : s.addColumn name type m = s.addColumn name type n := by
  simp only [Schema.addColumn, if_neg h]

/-- The loop of `exec_create_table` adds the declared columns, if it knows the
type of each. -/
theorem buildSchema_eq_ok {s s' : Schema} {cols : List AstColumnDef} :
    Executor.buildSchema s cols = .ok s' ↔
      ∃ defs, declared cols = some defs ∧ s' = s.addColumns defs := by
  induction cols generalizing s with
  | nil => simp [Executor.buildSchema, declared, Schema.addColumns, eq_comm]
  | cons c cols ih =>
      rw [Executor.buildSchema, declared, List.mapM_cons, declaredColumn]
      cases hty : Executor.columnDataType c.typeName with
      | none => simp
      | some type =>
          have hadd : s.addColumn (Bytes.toUpper c.name) type
              (if type = .varchar ∧ 0 < c.varcharLen then c.varcharLen else defaultVarcharMax) =
              s.addColumn (Bytes.toUpper c.name) type (if type ≠ .varchar then 0
                else if 0 < c.varcharLen then c.varcharLen else defaultVarcharMax) := by
            by_cases hv : type = .varchar
            · simp [hv]
            · exact addColumn_maxLen s _ hv _ _
          simp only [Option.map_some, Option.bind_eq_bind, Option.bind_some, hadd, ih,
            Option.bind_eq_some_iff, Option.pure_def, Option.some.injEq]
          constructor
          · rintro ⟨defs, hdefs, rfl⟩
            exact ⟨_, ⟨defs, hdefs, rfl⟩, rfl⟩
          · rintro ⟨_, ⟨defs, hdefs, rfl⟩, rfl⟩
            exact ⟨defs, hdefs, rfl⟩

theorem declared_maxLen {cols : List AstColumnDef} {defs : List ColumnDef}
    (h : declared cols = some defs) : ∀ c ∈ defs, c.type ≠ .varchar → c.maxLen = 0 := by
  induction cols generalizing defs with
  | nil =>
      obtain rfl := Option.some.inj h
      exact fun c hc => absurd hc List.not_mem_nil
  | cons col cols ih =>
      simp only [declared, List.mapM_cons, Option.bind_eq_bind, Option.bind_eq_some_iff,
        Option.pure_def, Option.some.injEq] at h
      obtain ⟨c, hc, rest, hrest, rfl⟩ := h
      refine List.forall_mem_cons.mpr ⟨fun hv => ?_, ih hrest⟩
      obtain ⟨type, -, rfl⟩ := Option.map_eq_some_iff.mp hc
      exact if_pos hv

/-- A `CREATE TABLE` that succeeds leaves a table with the declared columns. -/
theorem execCreateTable_declared {ex ex' : Executor} {stmt : CreateTableStmt} {r : QueryResult}
    (hrun : ex.execCreateTable stmt = .ok (ex', r)) (hok : r.success = true) :
    ∃ t defs, ex'.tables.lookup (Bytes.toUpper stmt.tableName) = some t ∧
      declared stmt.columns = some defs ∧ Settled t ∧ t.schema.columns = defs ∧
      t.cachedRowSize = t.schema.totalRowSize := by
  rcases execCreateTable_cases hrun with ⟨hfail, -⟩ | ⟨-, -, schema, t, hschema, hnew, rfl⟩
  · exact absurd hok (by simp [hfail])
  · obtain ⟨defs, hdefs, rfl⟩ := buildSchema_eq_ok.mp hschema
    have hset := settled_new ⟨defs, rfl⟩ hnew
    obtain ⟨pk, -, hk⟩ := Outcome.bind_eq_ok.mp hnew
    obtain rfl := Except.ok.inj hk
    exact ⟨_, defs, Finmap.lookup_insert _, hdefs, hset,
      columns_addColumns (declared_maxLen hdefs), rfl⟩

/-- The constructor of a table reads the type of its first column. -/
theorem table_new_iff {name : Bytes} {s : Schema} {ttl : UInt32} :
    (∃ t, Table.new name s ttl = .ok t) ↔ s.pkIndex < s.columns.length := by
  rw [Table.new, Schema.pkColumn]
  cases hc : s.columns[s.pkIndex]? with
  | none => exact iff_of_false (by simp) (Nat.not_lt.mpr (List.getElem?_eq_none_iff.mp hc))
  | some c => exact iff_of_true ⟨_, rfl⟩ (List.getElem?_eq_some_iff.mp hc).1

/-- A `CREATE TABLE` under a free name with known types and a column succeeds. -/
theorem execCreateTable_succeeds {ex : Executor} {stmt : CreateTableStmt} {defs : List ColumnDef}
    (hfree : ex.tables.lookup (Bytes.toUpper stmt.tableName) = none)
    (hdefs : declared stmt.columns = some defs) (hpk : defs ≠ []) :
    ∃ ex' r, ex.execCreateTable stmt = .ok (ex', r) ∧ r.success = true := by
  have hschema : Executor.buildSchema Schema.empty stmt.columns =
      .ok (Schema.empty.addColumns defs) := buildSchema_eq_ok.mpr ⟨defs, hdefs, rfl⟩
  have hcols := @columns_addColumns Schema.empty defs (declared_maxLen hdefs)
  obtain ⟨t, hnew⟩ : ∃ t, Table.new (Bytes.toUpper stmt.tableName) (Schema.empty.addColumns defs)
      defaultTtlSeconds = .ok t := by
    rw [table_new_iff, hcols, (built_empty.addColumns defs).pkIndex]
    exact List.length_pos_iff.mpr hpk
  simp only [Executor.execCreateTable, hfree, Option.isSome_none, Bool.false_eq_true, if_false,
    hschema, hnew, Outcome.bind_ok]
  exact ⟨_, _, rfl, rfl⟩

/-! ## Offsets -/

section Layout

variable {s : Schema}

/-- The layout is exact as long as nothing wraps around. -/
theorem exactLayout_iff (hbuilt : ∃ cols, s = Schema.empty.addColumns cols)
    (hpk : s.columns ≠ []) : ExactLayout s ↔ extent s.columns + 9 < 2 ^ 32 := by
  constructor
  · intro h
    rw [← h.total]
    exact s.totalRowSize.toNat_lt
  · intro hsize
    have hfits : Fits s := ⟨hbuilt, hpk, hsize⟩
    have hlt : ∀ {i c}, s.columns[i]? = some c → i < s.columns.length :=
      fun h => (List.getElem?_eq_some_iff.mp h).1
    refine ⟨fun i hi => hfits.columnOffset hi, hfits.expiryOffset, hfits.totalRowSize, ?_, ?_⟩
    · intro i j c d hij hc hd
      rw [hfits.columnOffset (hlt hc), hfits.columnOffset (hlt hd), ← extent_take_succ hc]
      exact extent_take_mono s.columns hij
    · intro i c hc
      rw [hfits.columnOffset (hlt hc), hfits.totalRowSize, ← extent_take_succ hc]
      exact Nat.add_le_add_right (extent_take_le s.columns (i + 1)) 9

end Layout

/-! ## A text that wraps around -/

section Texts

open FlexQL.Spec.Printer (Lexeme Identifier InLanguage listed)

/-- The bytes of lexemes with a space behind each. -/
def weight (ls : List Lexeme) : Nat := (ls.map fun a => a.text.length + 1).sum

theorem weight_append (as bs : List Lexeme) : weight (as ++ bs) = weight as + weight bs := by
  simp [weight]

theorem weight_cons (a : Lexeme) (as : List Lexeme) :
    weight (a :: as) = a.text.length + 1 + weight as := by
  simp [weight]

theorem length_render_le (ls : List Lexeme) : (Printer.render ls).length ≤ weight ls := by
  fun_induction Printer.render ls with
  | case1 => exact Nat.zero_le _
  | case2 a => simp [weight]
  | case3 a b ls ih =>
      have hgap : (Printer.gap a b).length ≤ 1 := by
        rw [Printer.gap]
        split <;> decide
      rw [weight_cons, List.length_append, List.length_append]
      omega

theorem weight_listed {α : Type} {f : α → List Lexeme} {as : List α} {k : Nat}
    (h : ∀ a ∈ as, weight (f a) ≤ k) : weight (listed f as) ≤ (k + 2) * as.length := by
  fun_induction listed f as with
  | case1 => exact Nat.zero_le _
  | case2 a => have := h a List.mem_cons_self; simp; omega
  | case3 a b as ih =>
      have ha := h a List.mem_cons_self
      have hrest := ih fun x hx => h x (List.mem_cons_of_mem _ hx)
      have hcomma : (Lexeme.fixed .comma).text.length = 1 := by decide
      rw [weight_append, weight_cons, hcomma]
      rw [List.length_cons, Nat.mul_succ]
      omega

theorem wideName_identifier {i : Nat} (hi : i < 456976) : Identifier (wideName i) := by
  have hword : ∀ a, a < 26 → Lexer.isWordChar (UInt8.ofNat (65 + a)) = true := by decide
  have hfree : ∀ p ∈ keywords, p.1.head? ≠ some 66 := by decide
  refine ⟨rfl, ?_, ?_⟩
  · have hhead : Lexer.isWordChar 66 = true := by decide
    simp only [wideName, List.all_cons, List.all_nil, Bool.and_true, Bool.and_eq_true]
    exact ⟨hhead, hword _ (by omega), hword _ (by omega), hword _ (by omega), hword _ (by omega)⟩
  · rw [toUpper_wideName hi, List.lookup_eq_none_iff]
    intro p hp
    have hne : wideName i ≠ p.1 := fun h => hfree p hp (by rw [← h]; rfl)
    simpa using hne

variable {n : Nat}

theorem wideStmt_inLanguage (hn : n ≤ 456976) : InLanguage (.createTable (wideStmt n)) := by
  have hid : Identifier (Bytes.lit "t") := ⟨by decide, by decide, by decide⟩
  refine ⟨hid, List.cons_ne_nil _ _, List.forall_mem_cons.mpr ⟨?_, ?_⟩⟩
  · exact ⟨⟨by decide, by decide, by decide⟩, .inr ⟨by decide, rfl⟩⟩
  · intro c hc
    obtain ⟨i, hi, rfl⟩ := List.mem_map.mp hc
    exact ⟨wideName_identifier ((List.mem_range.mp hi).trans_le hn), .inl rfl⟩

theorem length_print_wide : (Printer.print (.createTable (wideStmt n))).length ≤ 26 * n + 45 := by
  have hcols : ∀ c ∈ (wideStmt n).columns, weight (Printer.columnDef c) ≤ 24 := by
    refine List.forall_mem_cons.mpr ⟨by decide, fun c hc => ?_⟩
    obtain ⟨i, -, rfl⟩ := List.mem_map.mp hc
    have hname : (Lexeme.name (wideName i)).text.length = 5 := rfl
    have htype : weight (Printer.columnType ⟨[], Bytes.lit "VARCHAR", 65535⟩) ≤ 18 := by decide
    rw [Printer.columnDef, weight_cons, hname]
    exact Nat.add_le_add_left htype 6
  have hlen : (wideStmt n).columns.length = n + 1 := by simp [wideStmt]
  have hlist := weight_listed hcols
  have hhead : weight [.fixed .kwCreate, .fixed .kwTable, .name (Bytes.lit "t"),
    .fixed .lparen] = 17 := by decide
  have hlast : weight [.fixed .rparen] = 2 := by decide
  refine (length_render_le _).trans ?_
  show weight ([.fixed .kwCreate, .fixed .kwTable, .name (Bytes.lit "t"), .fixed .lparen] ++
    listed Printer.columnDef (wideStmt n).columns ++ [.fixed .rparen]) ≤ _
  rw [weight_append, weight_append, hhead, hlast]
  rw [hlen] at hlist
  omega

theorem wide_executeSql [FloatLib] (hn : n ≤ 456976) (now : Int64) :
    Executor.new.executeSql now (Printer.print (.createTable (wideStmt n))) =
      .ok (⟨(∅ : Finmap fun _ : Bytes => Table).insert (Bytes.lit "T")
        (wideTable n (Arena.new arenaChunkSize)), Executor.new.cache⟩,
        .done (Bytes.lit "Table " ++ Bytes.lit "T" ++ Bytes.lit " created")) := by
  rw [← wide_created hn, Executor.executeSql, parseSql_print (wideStmt_inLanguage hn)]
  rfl

theorem wideSchema_wraps (hn : n = 65536) :
    ((wideSchema n).columns[0]?).map (·.storageSize) = some 4 ∧
      ((wideSchema n).columnOffset 65536).toNat = 3 ∧ ¬ ExactLayout (wideSchema n) := by
  have hoff : ((wideSchema n).columnOffset 65536).toNat = 3 := wideSchema_offset (by omega)
  refine ⟨by rw [wideSchema_columns]; rfl, hoff, fun h => ?_⟩
  have hexact := h.offset 65536 (by
    rw [wideSchema_columns, wideColumns, List.length_cons, List.length_map, List.length_range]
    omega)
  rw [hoff, wideSchema_columns, extent_wide (by omega)] at hexact
  exact absurd hexact (by omega)

end Texts

section Created

attribute [local instance] noDoubles

/-- The layout of a created table is exact just when its columns and the nine
bytes behind them are fewer than 2^32 bytes. -/
theorem execCreateTable_exact_iff {ex ex' : Executor} {stmt : CreateTableStmt} {r : QueryResult}
    (hrun : ex.execCreateTable stmt = .ok (ex', r)) (hok : r.success = true) :
    ∃ t defs, ex'.tables.lookup (Bytes.toUpper stmt.tableName) = some t ∧
      declared stmt.columns = some defs ∧ t.schema.columns = defs ∧
      t.cachedRowSize = t.schema.totalRowSize ∧
      (ExactLayout t.schema ↔ extent defs + 9 < 2 ^ 32) := by
  obtain ⟨t, defs, hlook, hdefs, hset, hcols, hrow⟩ := execCreateTable_declared hrun hok
  refine ⟨t, defs, hlook, hdefs, hcols, hrow, ?_⟩
  rw [exactLayout_iff hset.built hset.pk, hcols]

theorem execCreateTable_exact_iff_int : ∃ ex' r t,
    Executor.new.execCreateTable (wideStmt 0) = .ok (ex', r) ∧
    ex'.tables.lookup (Bytes.lit "T") = some t ∧ ExactLayout t.schema := by
  obtain ⟨t, defs, hlook, hdefs, -, -, hiff⟩ :=
    execCreateTable_exact_iff (wide_created (Nat.zero_le _)) rfl
  have hint : declared (wideStmt 0).columns = some [⟨Bytes.lit "A", .int, 0⟩] := by decide
  obtain rfl := Option.some.inj (hdefs.symm.trans hint)
  exact ⟨_, _, t, wide_created (Nat.zero_le _), hlook, hiff.mpr (by decide)⟩

/-- A text of less than 2 MiB: the last column starts inside the first. -/
theorem wide_text_wraps : ∃ sql ex' r t, sql.length ≤ 10 * 1024 * 1024 ∧
    Executor.new.executeSql 0 sql = .ok (ex', r) ∧ r.success = true ∧
    ex'.tables.lookup (Bytes.lit "T") = some t ∧
    (t.schema.columns[0]?).map (·.storageSize) = some 4 ∧
    (t.schema.columnOffset 0).toNat = 0 ∧ (t.schema.columnOffset 65536).toNat = 3 ∧
    ¬ ExactLayout t.schema := by
  obtain ⟨n, hn⟩ : ∃ n, n = 65536 := ⟨_, rfl⟩
  have hlen := @length_print_wide n
  obtain ⟨hcol, hoff, hexact⟩ := wideSchema_wraps hn
  exact ⟨_, _, _, _, by omega, wide_executeSql (by omega) 0, rfl, Finmap.lookup_insert _, hcol,
    congrArg UInt32.toNat wideSchema_offset_zero, hoff, hexact⟩

end Created

/-! ## Names -/

section Names

variable {s : Schema}

/-- Every column is found at its own place just when no name comes twice. -/
theorem Indexed.positions_iff (h : Indexed s) :
    (∀ i c, s.columns[i]? = some c → s.findColumn c.name = some i) ↔
      (s.columns.map (·.name)).Nodup := by
  constructor
  · intro hpos
    rw [List.Nodup, List.pairwise_iff_getElem]
    intro i j hi hj hij heq
    rw [List.length_map] at hi hj
    rw [List.getElem_map, List.getElem_map] at heq
    have hfi := hpos i _ (List.getElem?_eq_getElem hi)
    rw [heq, hpos j _ (List.getElem?_eq_getElem hj)] at hfi
    exact absurd (Option.some.inj hfi) (Nat.ne_of_gt hij)
  · intro hnd i c hc
    obtain ⟨k, hk⟩ := h.complete c (List.mem_of_getElem? hc)
    obtain ⟨d, hd, hname⟩ := h.sound _ k hk
    have hlt : k < (s.columns.map (·.name)).length := by
      rw [List.length_map]
      exact (List.getElem?_eq_some_iff.mp hd).1
    have hsame : (s.columns.map (·.name))[k]? = (s.columns.map (·.name))[i]? := by
      rw [List.getElem?_map, List.getElem?_map, hd, hc, Option.map_some, Option.map_some, hname]
    rw [hk, (List.getElem?_inj hlt hnd).mp hsame]

/-- With distinct names the star stands for all positions in order. -/
theorem projection_all (h : Indexed s) (hnd : (s.columns.map (·.name)).Nodup) :
    Executor.projection s (s.columns.map (·.name)) = .ok (List.range s.columns.length) := by
  rw [Executor.projection, Outcome.mapM_eq_ok, List.forall₂_iff_get]
  refine ⟨by simp, fun i hi hi' => ?_⟩
  rw [List.length_map] at hi
  have hfind := h.positions_iff.mpr hnd i _ (List.getElem?_eq_getElem hi)
  simp only [List.get_eq_getElem, List.getElem_map, List.getElem_range, hfind]

end Names

section Star

variable [FloatLib] {ex : Executor} {name : Bytes} {t : Table}

/-- `SELECT *` then shows the scan as it is. -/
theorem selectSingle_star {stmt : SelectStmt} (hix : Indexed t.schema)
    (hnd : (t.schema.columns.map (·.name)).Nodup) (hstar : IsStar name stmt) (now : Int64)
    {rows : List Row} (hscan : t.scanAll now = .ok rows) :
    Executor.selectSingle now stmt t = .ok (.ok ⟨t.schema.columns.map (·.name), rows⟩) := by
  simp only [Executor.selectSingle, if_pos hstar.all, projection_all hix hnd, hstar.bare,
    Executor.scanTable, hscan, Outcome.bind_ok, Executor.project, if_true]

/-- `SELECT *` shows the declared columns and the rows as they are stored, and
every name leads to its own column, just when no name is declared twice. -/
theorem select_star_iff (hreach : Reachable ex) (ht : ex.tables.lookup name = some t) :
    ((∀ now sql stmt, parseSql sql = .ok (.ok (.select stmt)) → IsStar name stmt →
        (∃ cache, Executor.lookupCache ex.cache sql = .ok (cache, none)) →
        ∀ rows, t.scanAll now = .ok rows → ∃ ex' r, ex.executeSql now sql = .ok (ex', r) ∧
          r.success = true ∧ r.columnNames = t.schema.columns.map (·.name) ∧ r.rows = rows) ∧
      ∀ i c, t.schema.columns[i]? = some c → t.schema.findColumn c.name = some i) ↔
      (t.schema.columns.map (·.name)).Nodup := by
  have hcons := reachable_consistent hreach
  have hix := (hcons.tables _ t ht).indexed
  rw [hix.positions_iff]
  refine ⟨fun h => h.2, fun hnd => ⟨?_, hnd⟩⟩
  intro now sql stmt hparse hstar hmiss rows hscan
  have hexec : ex.executeSql now sql = ex.execSelect now stmt sql := by
    rw [Executor.executeSql, hparse]
    rfl
  rw [hexec, hcons.execSelect_miss hmiss]
  refine ⟨.ok ⟨t.schema.columns.map (·.name), rows⟩, ?_, rfl, rfl, rfl⟩
  rw [Executor.selectRows, hstar.table, ht, hstar.join]
  exact selectSingle_star hix hnd hstar now hscan

end Star

section Runs

attribute [local instance] noDoubles

/-- A table with a name declared twice, and a row in it. -/
def twiceNamed : List Bytes :=
  [Bytes.lit "CREATE TABLE t (a INT, b INT)", Bytes.lit "CREATE TABLE u (a INT, a INT)",
    Bytes.lit "INSERT INTO u VALUES (1, 2)"]

set_option synthInstance.maxSize 1000 in
theorem twiceNamed_run : ∃ ex ex' t u names, Reachable ex ∧
    ex.tables.lookup (Bytes.lit "T") = some t ∧ (t.schema.columns.map (·.name)).Nodup ∧
    ex.tables.lookup (Bytes.lit "U") = some u ∧ u.scanAll 0 = .ok [[.int 1, .int 2]] ∧
    u.schema.findColumn (Bytes.lit "A") = some 1 ∧
    (∃ cache, Executor.lookupCache ex.cache (Bytes.lit "SELECT * FROM u") = .ok (cache, none)) ∧
    ex.executeSql 0 (Bytes.lit "SELECT * FROM u") =
      .ok (ex', .answer ⟨names, [[.int 2, .int 2]]⟩) := by
  have hrun : (do
      let s ← runAll 0 Executor.new twiceNamed
      let t ← Executor.cell (s.1.tables.lookup (Bytes.lit "T")).toList 0
      let u ← Executor.cell (s.1.tables.lookup (Bytes.lit "U")).toList 0
      let rows ← u.scanAll 0
      let found ← Executor.lookupCache s.1.cache (Bytes.lit "SELECT * FROM u")
      let shown ← s.1.executeSql 0 (Bytes.lit "SELECT * FROM u")
      .ok (t.schema.columns.map (·.name), rows, u.schema.findColumn (Bytes.lit "A"), found.2,
        shown.2) : Outcome _) =
      .ok ([Bytes.lit "A", Bytes.lit "B"], [[.int 1, .int 2]], some 1, none,
        .answer ⟨[Bytes.lit "A", Bytes.lit "A"], [[.int 2, .int 2]]⟩) := by
    decide +kernel
  obtain ⟨⟨ex, rs⟩, hall, hrun⟩ := Outcome.bind_eq_ok.mp hrun
  obtain ⟨t, ht, hrun⟩ := Outcome.bind_eq_ok.mp hrun
  obtain ⟨u, hu, hrun⟩ := Outcome.bind_eq_ok.mp hrun
  obtain ⟨rows, hrows, hrun⟩ := Outcome.bind_eq_ok.mp hrun
  obtain ⟨⟨cache, cached⟩, hmiss, hrun⟩ := Outcome.bind_eq_ok.mp hrun
  obtain ⟨⟨ex', r⟩, hsel, hrun⟩ := Outcome.bind_eq_ok.mp hrun
  simp only [Except.ok.injEq, Prod.mk.injEq] at hrun
  obtain ⟨hnames, rfl, hfind, rfl, rfl⟩ := hrun
  exact ⟨ex, ex', t, u, _, reachable_runAll .new hall, cell_toList ht, by rw [hnames]; decide,
    cell_toList hu, hrows, hfind, ⟨cache, hmiss⟩, hsel⟩

theorem select_star_iff_two : ∃ ex t, Reachable ex ∧
    ex.tables.lookup (Bytes.lit "T") = some t ∧
    ∀ i c, t.schema.columns[i]? = some c → t.schema.findColumn c.name = some i := by
  obtain ⟨ex, -, t, -, -, hreach, ht, hnd, -⟩ := twiceNamed_run
  exact ⟨ex, t, hreach, ht, ((select_star_iff hreach ht).mpr hnd).2⟩

/-- Both columns of the answer show the second: the stored row is (1, 2). -/
theorem star_shows_last_of_name : ∃ ex ex' u r, Reachable ex ∧
    ex.tables.lookup (Bytes.lit "U") = some u ∧
    (∃ cache, Executor.lookupCache ex.cache (Bytes.lit "SELECT * FROM u") = .ok (cache, none)) ∧
    u.scanAll 0 = .ok [[.int 1, .int 2]] ∧
    ex.executeSql 0 (Bytes.lit "SELECT * FROM u") = .ok (ex', r) ∧ r.success = true ∧
    r.rows = [[.int 2, .int 2]] ∧ u.schema.findColumn (Bytes.lit "A") = some 1 := by
  obtain ⟨ex, ex', -, u, _, hreach, -, -, hu, hscan, hfind, hmiss, hsel⟩ := twiceNamed_run
  exact ⟨ex, ex', u, _, hreach, hu, hmiss, hscan, hsel, rfl, rfl, hfind⟩

end Runs

end FlexQL.Proofs
