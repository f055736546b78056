import FlexQL.Proofs.Wrapped

/-!
# A `SELECT` on one table is a filter and a projection

The query finds its columns by name, takes one of three paths to the rows, and
skips the projection where it would change nothing. With distinct column names
and distinct first values the paths agree, up to order, with filtering the
scan.
-/

namespace FlexQL.Proofs

open Lib FlexQL.Ref FlexQL.Spec

/-! ## Columns by name -/

/-- The name index knows the columns and no others. -/
structure Indexed (s : Schema) : Prop where
  sound : ∀ name i, s.findColumn name = some i → ∃ c, s.columns[i]? = some c ∧ c.name = name
  complete : ∀ c ∈ s.columns, ∃ i, s.findColumn c.name = some i

theorem indexed_empty : Indexed Schema.empty :=
  ⟨fun name i h => absurd h (by simp [Schema.findColumn, Schema.empty]),
    fun c hc => absurd hc (by simp [Schema.empty])⟩

theorem Indexed.addColumn {s : Schema} (h : Indexed s) (name : Bytes) (type : DataType)
    (maxLen : UInt16) : Indexed (s.addColumn name type maxLen) := by
  have hself : (s.addColumn name type maxLen).findColumn name = some s.columns.length :=
    Finmap.lookup_insert _
  have hother : ∀ n, n ≠ name →
      (s.addColumn name type maxLen).findColumn n = s.findColumn n :=
    fun n hn => Finmap.lookup_insert_of_ne _ hn
  refine ⟨fun n i hi => ?_, fun c hc => ?_⟩
  · by_cases hn : n = name
    · subst hn
      obtain rfl := Option.some.inj (hself.symm.trans hi)
      exact ⟨_, List.getElem?_concat_length, rfl⟩
    · rw [hother n hn] at hi
      obtain ⟨c, hc, hname⟩ := h.sound n i hi
      have hlt : i < s.columns.length := (List.getElem?_eq_some_iff.mp hc).1
      exact ⟨c, (List.getElem?_append_left hlt).trans hc, hname⟩
  · by_cases hn : c.name = name
    · exact ⟨_, by rw [hn]; exact hself⟩
    · rw [hother c.name hn]
      rcases List.mem_append.mp hc with hc | hc
      · exact h.complete c hc
      · exact absurd (by rw [List.mem_singleton.mp hc]) hn

theorem Indexed.addColumns {s : Schema} (h : Indexed s) (cols : List ColumnDef) :
    Indexed (s.addColumns cols) := by
  induction cols generalizing s with
  | nil => exact h
  | cons c cols ih => exact ih (h.addColumn c.name c.type c.maxLen)

/-- A column is found where its name stands first. -/
theorem Indexed.findColumn_eq {s : Schema} (h : Indexed s)
    (hnd : (s.columns.map (·.name)).Nodup) (name : Bytes) :
    s.findColumn name = s.columns.findIdx? (·.name = name) := by
  cases hf : s.findColumn name with
  | none =>
      symm
      rw [List.findIdx?_eq_none_iff]
      intro c hc
      by_contra hname
      obtain ⟨i, hi⟩ := h.complete c hc
      have hn : c.name = name := by simpa using hname
      rw [hn, hf] at hi
      exact absurd hi (by simp)
  | some i =>
      obtain ⟨c, hc, hname⟩ := h.sound name i hf
      obtain ⟨hlt, rfl⟩ := List.getElem?_eq_some_iff.mp hc
      symm
      rw [List.findIdx?_eq_some_iff_getElem]
      refine ⟨hlt, by simpa using hname, fun j hj hcontra => ?_⟩
      have hjn : s.columns[j].name = name := by simpa using hcontra
      have hlt' : i < (s.columns.map (·.name)).length := by rwa [List.length_map]
      have hget : (s.columns.map (·.name)).get ⟨j, hj.trans hlt'⟩ =
          (s.columns.map (·.name)).get ⟨i, hlt'⟩ := by simp [hjn, hname]
      exact absurd (Fin.mk.inj (hnd.get_inj_iff.mp hget)) (Nat.ne_of_lt hj)

theorem indexed_of_built {s : Schema} (h : ∃ cols, s = Schema.empty.addColumns cols) :
    Indexed s := by
  obtain ⟨cols, rfl⟩ := h
  exact indexed_empty.addColumns cols

theorem Settled.indexed {t : Table} (h : Settled t) : Indexed t.schema := indexed_of_built h.built

/-! ## The rows -/

section Rows

variable {t : Table} {rs : List Record}

theorem Rep.length_row (h : Rep t rs) {r : Record} (hr : r ∈ rs) :
    r.values.length = t.schema.columns.length := by
  obtain ⟨i, hi, rfl⟩ := List.getElem_of_mem hr
  exact ((List.forall₂_iff_get.mp h.rows).2 i (by rw [h.rows.length_eq]; exact hi) hi).length_eq

/-- A filtered scan over a column that is not the first. -/
theorem Rep.scanWhere (h : Rep t rs) (now : Int64) {i : Nat} (hi : i < t.schema.columns.length)
    (h0 : i ≠ t.schema.pkIndex) (op : CmpOp) (v : Value) :
    t.scanWhere now i op v [] = .ok (((rs.filter (·.live now)).map (·.values)).filter
      fun row => (row[i]?).any fun x => op.holds x v) := by
  have hrows : List.Forall₂ (fun p (r : Record) =>
      (do if ← t.isRowValid now p then t.compareValue p i op v else .ok false : Outcome Bool) =
        .ok (r.live now && (r.values[i]?).any fun x => op.holds x v) ∧
      t.readSelected [] p = .ok r.values) t.rows rs := by
    refine h.rows.imp fun p r hr => ⟨?_, ?_⟩
    · obtain ⟨x, hx, hread⟩ := hr.readValue h.fits hi
      rw [hr.isRowValid h.fits now, Outcome.bind_ok, Table.compareValue, hread, hx]
      cases r.live now <;> simp
    · rw [Table.readSelected]
      exact hr.readRow h.fits
  rw [Table.scanWhere, if_neg h0, scanRows_spec hrows, List.filter_map, List.filter_filter]
  congr 2
  refine List.filter_congr fun r _ => ?_
  rw [Bool.and_comm]
  rfl

theorem lastOfKey_of_distinct (hdistinct : ((rs.map (·.values)).map key).Nodup) {i : Nat}
    {r : Record} (hr : rs[i]? = some r) : LastOfKey rs i r := by
  intro j r' hij hr' hkey
  rw [List.map_map] at hdistinct
  have hlt := (List.getElem?_eq_some_iff.mp hr').1
  have hget : (rs.map (key ∘ (·.values)))[i]? = (rs.map (key ∘ (·.values)))[j]? := by
    rw [List.getElem?_map, List.getElem?_map, hr, hr']
    simp [hkey]
  exact absurd ((List.getElem?_inj (by rw [List.length_map]; omega) hdistinct).mp hget)
    (Nat.ne_of_lt hij)

end Rows

/-! ## The projection -/

section Projection

variable {s : Schema}

theorem cells_range (row : Row) :
    (List.range row.length).mapM (Executor.cell row) = .ok row := by
  rw [Outcome.mapM_eq_ok, List.forall₂_iff_get]
  refine ⟨by simp, fun i hi hi' => ?_⟩
  rw [List.get_eq_getElem, List.get_eq_getElem, List.getElem_range, Executor.cell,
    List.getElem?_eq_getElem hi']

/-- The selected columns of a row, if the table has all of them. -/
theorem projection_ok (h : Indexed s) (hnd : (s.columns.map (·.name)).Nodup) {names : List Bytes}
    (hnames : ∀ name ∈ names, name ∈ s.columns.map (·.name)) :
    ∃ indices, Executor.projection s names = .ok indices ∧
      ∀ row : Row, row.length = s.columns.length →
        indices.mapM (Executor.cell row) = .ok (names.filterMap (field s row)) := by
  induction names with
  | nil => exact ⟨[], rfl, fun row _ => rfl⟩
  | cons name names ih =>
      obtain ⟨indices, hproj, hread⟩ := ih fun n hn => hnames n (List.mem_cons_of_mem _ hn)
      obtain ⟨c, hc, hname⟩ := List.mem_map.mp (hnames name List.mem_cons_self)
      obtain ⟨i, hi⟩ := h.complete c hc
      rw [hname] at hi
      refine ⟨i :: indices, ?_, fun row hrow => ?_⟩
      · rw [Executor.projection] at hproj ⊢
        rw [List.mapM_cons, hproj]
        simp only [hi]
        rfl
      · obtain ⟨c', hc', -⟩ := h.sound name i hi
        have hlt : i < row.length := by
          rw [hrow]
          exact (List.getElem?_eq_some_iff.mp hc').1
        have hcell : Executor.cell row i = .ok row[i] := by
          rw [Executor.cell, List.getElem?_eq_getElem hlt]
        have hfield : field s row name = some row[i] := by
          rw [field, ← h.findColumn_eq hnd, hi, Option.bind_some, List.getElem?_eq_getElem hlt]
        rw [List.mapM_cons, hcell, hread row hrow, List.filterMap_cons, hfield]
        rfl

theorem projection_error (h : Indexed s) {names : List Bytes} {name : Bytes}
    (hmem : name ∈ names) (hname : name ∉ s.columns.map (·.name)) :
    ∃ e, Executor.projection s names = .error e := by
  cases hproj : Executor.projection s names with
  | error e => exact ⟨e, rfl⟩
  | ok indices =>
      exfalso
      rw [Executor.projection, Outcome.mapM_eq_ok, List.forall₂_iff_get] at hproj
      obtain ⟨i, hi, rfl⟩ := List.getElem_of_mem hmem
      have hfind := hproj.2 i hi (hproj.1 ▸ hi)
      rw [List.get_eq_getElem] at hfind
      split at hfind
      · next j hj =>
          obtain ⟨c, hc, hcn⟩ := h.sound _ j hj
          exact hname (hcn ▸ List.mem_map_of_mem (List.mem_of_getElem? hc))
      · exact absurd hfind (by simp)

/-- Leaving out the projection changes nothing where the code leaves it out. -/
theorem project_eq {names : List Bytes} {indices : List Nat} {rows : List Row}
    (hread : ∀ row : Row, row.length = s.columns.length →
      indices.mapM (Executor.cell row) = .ok (names.filterMap (field s row)))
    (hrows : ∀ row ∈ rows, row.length = s.columns.length) :
    Executor.project s.columns.length indices rows =
      .ok (rows.map fun row => names.filterMap (field s row)) := by
  rw [Executor.project]
  split
  · next hid =>
      have hself : rows.map (fun row => names.filterMap (field s row)) = rows.map id := by
        refine List.map_congr_left fun row hrow => ?_
        have hlen := hrows row hrow
        have hcells := hread row hlen
        rw [hid, ← hlen, cells_range] at hcells
        exact (Except.ok.inj hcells).symm
      rw [hself, List.map_id]
  · rw [Outcome.mapM_eq_ok, List.forall₂_map_right_iff, List.forall₂_same]
    exact fun row hrow => hread row (hrows row hrow)

end Projection

/-! ## The access paths -/

section Paths

variable {t : Table} {rs : List Record}

/-- The rows by the path the code takes, up to order. -/
theorem Rep.whereRows (h : Rep t rs) (hty : Exact (pkType t.schema))
    (hdistinct : ((rs.map (·.values)).map key).Nodup) (now : Int64) {i : Nat} {c : ColumnDef}
    (hc : t.schema.columns[i]? = some c) (op : CmpOp) {v : Value} (hv : v.type = c.type) :
    ∃ rows, Executor.whereRows now t i op v = .ok rows ∧
      rows.Perm (((rs.filter (·.live now)).map (·.values)).filter
        fun row => (row[i]?).any fun x => op.holds x v) := by
  have hpk := h.fits.toBuilt.pkIndex
  rw [Executor.whereRows, hpk]
  split
  · next hi =>
      subst hi
      obtain ⟨d, cols, hcols⟩ := List.exists_cons_of_ne_nil h.fits.pk
      have hpkv : v.type = pkType t.schema := by
        rw [hcols] at hc
        obtain rfl := Option.some.inj hc
        rw [hv, pkType, hcols]
        rfl
      obtain ⟨ranged, hrange, hperm⟩ := h.indexRange_perm hty now op hpkv
      refine ⟨ranged, hrange, ?_⟩
      have hsame : (((rs.filter (·.live now)).map (·.values)).filter
          fun row => (row[0]?).any fun x => op.holds x v) =
          ((rs.filter (·.live now)).map (·.values)).filter fun row => op.holds (key row) v := by
        refine List.filter_congr fun row hrow => ?_
        obtain ⟨r, hr, rfl⟩ := List.mem_map.mp hrow
        have hlen := h.length_row (List.mem_of_mem_filter hr)
        cases hvs : r.values with
        | nil => rw [hvs, hcols] at hlen; exact absurd hlen (by simp)
        | cons x xs => simp [key]
      rw [hsame]
      exact hperm.mpr fun i r hr _ _ => lastOfKey_of_distinct hdistinct hr
  · next hi =>
      exact ⟨_, h.scanWhere now (List.getElem?_eq_some_iff.mp hc).1 (by rwa [hpk]) op v, .rfl⟩

variable [FloatLib]

/-- The column of a `WHERE` and the value it is compared with. -/
theorem bound_of_findIdx {s : Schema} {w : WhereClause} {i : Nat} {c : ColumnDef}
    (hi : s.columns.findIdx? (·.name = Bytes.toUpper w.column.column) = some i)
    (hc : s.columns[i]? = some c) :
    bound s w = (Executor.parseLiteral w.literal c.type).toOption := by
  obtain ⟨hlt, hname, hfirst⟩ := List.findIdx?_eq_some_iff_getElem.mp hi
  have hci : s.columns[i] = c := (List.getElem?_eq_some_iff.mp hc).2
  have hfind : s.columns.find? (·.name = Bytes.toUpper w.column.column) = some c :=
    List.find?_eq_some_iff_getElem.mpr
      ⟨hci ▸ hname, i, hlt, hci, fun j hj => by simpa using hfirst j hj⟩
  rw [bound, hfind, Option.bind_some]

theorem bound_of_notFound {s : Schema} {w : WhereClause}
    (h : s.columns.findIdx? (·.name = Bytes.toUpper w.column.column) = none) :
    bound s w = none := by
  have hfind : s.columns.find? (·.name = Bytes.toUpper w.column.column) = none := by
    rw [List.find?_eq_none]
    intro c hc
    simpa using List.findIdx?_eq_none_iff.mp h c hc
  rw [bound, hfind, Option.bind_none]

/-- The rows of a query before the projection, or the failure. -/
theorem Rep.scanTable (h : Rep t rs) (hix : Indexed t.schema)
    (hnd : (t.schema.columns.map (·.name)).Nodup) (hty : Exact (pkType t.schema))
    (hdistinct : ((rs.map (·.values)).map key).Nodup) (now : Int64)
    (whereClause : Option WhereClause) :
    ((∃ w, whereClause = some w ∧ bound t.schema w = none) ∧
      ∃ e, Executor.scanTable now t whereClause = .ok (.error e)) ∨
    ((∀ w, whereClause = some w → bound t.schema w ≠ none) ∧
      ∃ rows, Executor.scanTable now t whereClause = .ok (.ok rows) ∧
        rows.Perm (((rs.filter (·.live now)).map (·.values)).filter
          (keeps t.schema whereClause))) := by
  cases whereClause with
  | none =>
      refine .inr ⟨fun w hw => absurd hw (by simp), (rs.filter (·.live now)).map (·.values),
        ?_, ?_⟩
      · rw [Executor.scanTable, h.scanAll now, Outcome.bind_ok]
      · exact List.Perm.of_eq (List.filter_eq_self.mpr fun _ _ => rfl).symm
  | some w =>
      rw [Executor.scanTable, hix.findColumn_eq hnd]
      cases hi : t.schema.columns.findIdx? (·.name = Bytes.toUpper w.column.column) with
      | none => exact .inl ⟨⟨w, rfl, bound_of_notFound hi⟩, _, rfl⟩
      | some i =>
          have hlt := (List.findIdx?_eq_some_iff_getElem.mp hi).1
          have hc := List.getElem?_eq_getElem hlt
          have hcell : Executor.cell t.schema.columns i = .ok t.schema.columns[i] := by
            rw [Executor.cell, hc]
          have hbound := bound_of_findIdx hi hc
          simp only [hcell, Outcome.bind_ok]
          cases hv : Executor.parseLiteral w.literal t.schema.columns[i].type with
          | error e =>
              rw [hv] at hbound
              exact .inl ⟨⟨w, rfl, hbound⟩, e, rfl⟩
          | ok v =>
              rw [hv] at hbound
              obtain ⟨rows, hrun, hperm⟩ := h.whereRows hty hdistinct now hc
                (Executor.convertOp w.op) (parseLiteral_type hv)
              refine .inr ⟨fun w' hw' => ?_, rows, ?_, ?_⟩
              · obtain rfl := Option.some.inj hw'
                rw [hbound]
                exact Option.some_ne_none v
              · simp only [hrun, Outcome.bind_ok]
              · refine hperm.trans (List.Perm.of_eq (List.filter_congr fun row _ => ?_))
                rw [keeps, field, hi, hbound, Option.bind_some]
                cases row[i]? <;> rfl

/-- The query behind the cache. -/
theorem Rep.selectSingle (h : Rep t rs) (hix : Indexed t.schema)
    (hnd : (t.schema.columns.map (·.name)).Nodup) (hty : Exact (pkType t.schema))
    (hdistinct : ((rs.map (·.values)).map key).Nodup) (now : Int64) (stmt : SelectStmt) :
    (((∃ name ∈ selectedNames t.schema stmt, name ∉ t.schema.columns.map (·.name)) ∨
        ∃ w, stmt.whereClause = some w ∧ bound t.schema w = none) ∧
      ∃ e, Executor.selectSingle now stmt t = .ok (.error e)) ∨
    (¬ ((∃ name ∈ selectedNames t.schema stmt, name ∉ t.schema.columns.map (·.name)) ∨
        ∃ w, stmt.whereClause = some w ∧ bound t.schema w = none) ∧
      ∃ rows, Executor.selectSingle now stmt t =
          .ok (.ok ⟨selectedNames t.schema stmt, rows⟩) ∧
        rows.Perm ((((rs.filter (·.live now)).map (·.values)).filter
          (keeps t.schema stmt.whereClause)).map fun row =>
            (selectedNames t.schema stmt).filterMap (field t.schema row))) := by
  by_cases hnames : ∃ name ∈ selectedNames t.schema stmt, name ∉ t.schema.columns.map (·.name)
  · obtain ⟨name, hmem, hname⟩ := hnames
    obtain ⟨e, he⟩ := projection_error hix hmem hname
    rw [selectedNames] at he
    exact .inl ⟨.inl ⟨name, hmem, hname⟩, e, by simp only [Executor.selectSingle, he]⟩
  · have hall : ∀ name ∈ selectedNames t.schema stmt, name ∈ t.schema.columns.map (·.name) :=
      fun name hmem => Classical.not_not.mp fun hname => hnames ⟨name, hmem, hname⟩
    obtain ⟨indices, hproj, hread⟩ := projection_ok hix hnd hall
    rw [selectedNames] at hproj
    rcases h.scanTable hix hnd hty hdistinct now stmt.whereClause with
      ⟨hw, e, hscan⟩ | ⟨hw, rows, hscan, hperm⟩
    · exact .inl ⟨.inr hw, e, by simp only [Executor.selectSingle, hproj, hscan, Outcome.bind_ok]⟩
    · have hlen : ∀ row ∈ rows, row.length = t.schema.columns.length := by
        intro row hrow
        obtain ⟨r, hr, rfl⟩ := List.mem_map.mp (List.mem_of_mem_filter (hperm.mem_iff.mp hrow))
        exact h.length_row (List.mem_of_mem_filter hr)
      refine .inr ⟨?_, _, ?_, hperm.map _⟩
      · rintro (hn | ⟨w, hwc, hb⟩)
        · exact hnames hn
        · exact hw w hwc hb
      · simp only [Executor.selectSingle, hproj, hscan, Outcome.bind_ok, project_eq hread hlen]
        rfl

end Paths

/-! ## The statement -/

section Statement

variable [FloatLib] {ex : Executor} {t : Table} {stmt : SelectStmt}

end Statement

section Runs

attribute [local instance] noDoubles

/-- `SELECT n FROM t WHERE id > 1` -/
def pairQuery : SelectStmt :=
  ⟨Bytes.lit "t", [⟨[], Bytes.lit "n"⟩], false,
    some ⟨⟨[], Bytes.lit "id"⟩, .gt, Bytes.lit "1"⟩, none⟩

/-- `SELECT A FROM t WHERE A = 0` -/
def zeroQuery : SelectStmt :=
  ⟨Bytes.lit "t", [⟨[], Bytes.lit "A"⟩], false,
    some ⟨⟨[], Bytes.lit "A"⟩, .eq, Bytes.lit "0"⟩, none⟩

section

variable {n : Nat}

theorem wideSchema_findIdx :
    (wideSchema n).columns.findIdx? (·.name = Bytes.toUpper (Bytes.lit "A")) = some 0 := by
  rw [wideSchema_columns, wideColumns, List.findIdx?_cons, show decide
    (Bytes.lit "A" = Bytes.toUpper (Bytes.lit "A")) = true by decide]
  rfl

theorem wideSchema_column : (wideSchema n).columns[0]? = some ⟨Bytes.lit "A", .int, 0⟩ := by
  rw [wideSchema_columns]
  rfl

theorem zeroQuery_literal : Executor.parseLiteral (Bytes.lit "0") .int = .ok (.int 0) := by
  decide +kernel

theorem zeroQuery_keeps :
    keeps (wideSchema n) zeroQuery.whereClause (wideRow 0 n) = true := by
  have hbound : bound (wideSchema n) ⟨⟨[], Bytes.lit "A"⟩, .eq, Bytes.lit "0"⟩ = some (.int 0) := by
    rw [bound_of_findIdx wideSchema_findIdx wideSchema_column, zeroQuery_literal]
    rfl
  have hfield : field (wideSchema n) (wideRow 0 n) (Bytes.toUpper (Bytes.lit "A")) =
      some (.int 0) := by
    rw [field, wideSchema_findIdx]
    rfl
  rw [zeroQuery, keeps, hbound, hfield]
  rfl

theorem zeroQuery_misses {t : Table} (hn : n ≤ 456976) (hs : t.schema = wideSchema n)
    (hrange : t.indexRange 1744826864 .eq (.int 0) [] = .ok []) :
    Executor.selectSingle 1744826864 zeroQuery t =
      .ok (.ok ⟨[Bytes.toUpper (Bytes.lit "A")], []⟩) := by
  have hnd : ((wideSchema n).columns.map (·.name)).Nodup := by
    rw [wideSchema_columns]
    exact wideColumns_nodup hn
  have hfind : t.schema.findColumn (Bytes.toUpper (Bytes.lit "A")) = some 0 := by
    have hix : Indexed (wideSchema n) := indexed_empty.addColumns (wideColumns n)
    rw [hs, hix.findColumn_eq hnd]
    exact wideSchema_findIdx
  have hproj : Executor.projection t.schema [Bytes.toUpper (Bytes.lit "A")] = .ok [0] := by
    rw [Executor.projection, List.mapM_cons]
    simp only [hfind]
    rfl
  have hcell : Executor.cell t.schema.columns 0 = .ok ⟨Bytes.lit "A", .int, 0⟩ := by
    rw [Executor.cell, hs, wideSchema_column]
  have hrows : Executor.whereRows 1744826864 t 0 .eq (.int 0) = .ok [] := by
    rw [Executor.whereRows, if_pos (by rw [hs]; exact wideSchema_built.pkIndex.symm), hrange]
  have hscan : Executor.scanTable 1744826864 t zeroQuery.whereClause = .ok (.ok []) := by
    simp only [zeroQuery, Executor.scanTable, hfind, hcell, Outcome.bind_ok, zeroQuery_literal,
      Executor.convertOp, hrows]
  have hproject : Executor.project t.schema.columns.length [0] [] = .ok [] := by
    rw [Executor.project]
    split <;> rfl
  have hnames : (if Executor.selectsAll zeroQuery = true then t.schema.columns.map (·.name)
      else zeroQuery.columns.map fun cr => Bytes.toUpper cr.column) =
        [Bytes.toUpper (Bytes.lit "A")] := rfl
  simp only [Executor.selectSingle, hnames, hproj, hscan, hproject, Outcome.bind_ok]

end

end Runs

end FlexQL.Proofs
