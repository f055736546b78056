import FlexQL.Proofs.Join

/-!
# Queries on two tables

A join that is not refused reads both tables and returns the output columns of
its pairs. The `ON` is resolved by position, whatever the qualifiers say: the
first column is looked for in the left table and the second in the right one.
-/

namespace FlexQL.Proofs

open Lib FlexQL.Ref FlexQL.Spec
open FlexQL.Ref.Executor (Side JoinTables)
open FlexQL.Ref.Executor.JoinTables (pick)

/-! ## Scans -/

theorem scanRows_mem {keep : Ptr → Outcome Bool} {read : Ptr → Outcome Row} {ps : List Ptr}
    {rows : List Row} (h : Table.scanRows keep read ps = .ok rows) :
    ∀ row ∈ rows, ∃ p ∈ ps, read p = .ok row := by
  intro row hrow
  obtain ⟨qs, hsub, hread⟩ := scanRows_ok h
  obtain ⟨q, hq, hrow⟩ := forall₂_mem_right hread hrow
  exact ⟨q, hsub.subset hq, hrow⟩

/-- A scan gives rows of the table's width, even where they overlap in memory. -/
theorem scanAll_length {t : Table} {now : Int64} {rows : List Row}
    (h : t.scanAll now = .ok rows) : ∀ row ∈ rows, row.length = t.schema.columns.length := by
  intro row hrow
  obtain ⟨p, -, hread⟩ := scanRows_mem h row hrow
  exact readRow_length hread

/-! ## The query -/

section Query

variable {tables : Finmap fun _ : Bytes => Table} {stmt : SelectStmt}
  {join : JoinClause} {left right : Table} {leftRows rightRows : List Row} {now : Int64}
  {leftIdx rightIdx : Nat}

theorem outputs_sourced {j : JoinTables} (hl : Indexed j.left) (hr : Indexed j.right)
    {cols : List (Bytes × Side × Nat)} (h : outputs j stmt = .ok cols) :
    ∀ src ∈ cols.map (·.2), Sourced j src := by
  intro src hsrc
  obtain ⟨c, hc, rfl⟩ := List.mem_map.mp hsrc
  rw [outputs] at h
  split at h
  · exact allColumns_sourced (Except.ok.inj h ▸ hc)
  · exact selectedColumns_sourced hl hr h hc

/-- The columns of the `ON` of a join that is not refused. -/
theorem exists_of_not_refused (h : ¬ JoinRefused tables stmt join) :
    ∃ left right leftIdx rightIdx, tables.lookup (Bytes.toUpper stmt.tableName) = some left ∧
      tables.lookup (Bytes.toUpper join.rightTable) = some right ∧
      left.schema.findColumn (Bytes.toUpper join.leftCol.column) = some leftIdx ∧
      right.schema.findColumn (Bytes.toUpper join.rightCol.column) = some rightIdx := by
  simp only [JoinRefused, not_forall, not_or] at h
  obtain ⟨left, right, hleft, hright, hi, hk⟩ := h
  obtain ⟨leftIdx, hi⟩ := Option.ne_none_iff_exists'.mp hi
  obtain ⟨rightIdx, hk⟩ := Option.ne_none_iff_exists'.mp hk
  exact ⟨left, right, leftIdx, rightIdx, hleft, hright, hi, hk⟩

variable [FloatLib]

/-- The answer of a join over these rows. -/
def joinResult (j : JoinTables) (stmt : SelectStmt) (op : CmpOp) (leftIdx rightIdx : Nat)
    (leftRows rightRows : List Row) : Except Bytes CachedResult :=
  match outputs j stmt with
  | .error e => .error e
  | .ok cols => .ok ⟨cols.map (·.1), (joinPairs j stmt.whereClause op leftIdx rightIdx
      leftRows rightRows).map (gather (cols.map (·.2)))⟩

/-- A join whose tables and `ON` columns are there. -/
theorem selectRows_join (now : Int64) (stmt : SelectStmt) (join : JoinClause)
    (hjoin : stmt.join = some join)
    (hleft : tables.lookup (Bytes.toUpper stmt.tableName) = some left)
    (hright : tables.lookup (Bytes.toUpper join.rightTable) = some right)
    (hl : Indexed left.schema) (hr : Indexed right.schema)
    (hi : left.schema.findColumn (Bytes.toUpper join.leftCol.column) = some leftIdx)
    (hk : right.schema.findColumn (Bytes.toUpper join.rightCol.column) = some rightIdx) :
    Executor.selectRows tables now stmt = (do
      let leftRows ← left.scanAll now
      let rightRows ← right.scanAll now
      .ok (joinResult (joinOf stmt join left right) stmt (Executor.convertOp join.op) leftIdx
        rightIdx leftRows rightRows)) := by
  simp only [Executor.selectRows, hleft, hjoin, Executor.selectJoin, hright, hi, hk]
  cases hL : left.scanAll now with
  | error fault => rfl
  | ok leftRows =>
      cases hR : right.scanAll now with
      | error fault => rfl
      | ok rightRows =>
          have hrun := fun cols (hout : outputs (joinOf stmt join left right) stmt = .ok cols) =>
            joinRows_eq (j := joinOf stmt join left right) hl hr (scanAll_length hL)
              (scanAll_length hR) (hl.lt hi) (hr.lt hk) stmt.whereClause
              (outputs_sourced hl hr hout) join.op
          simp only [Outcome.bind_ok, joinResult]
          cases hout : outputs (joinOf stmt join left right) stmt with
          | error e =>
              rw [outputs, joinOf] at hout
              simp only [hout]
          | ok cols =>
              have hrows := hrun cols hout
              rw [outputs, joinOf] at hout
              rw [joinOf] at hrows
              simp only [hout, hrows, Outcome.bind_ok, joinOf]

theorem selectRows_refused (now : Int64) (hjoin : stmt.join = some join)
    (h : JoinRefused tables stmt join) :
    ∃ e, Executor.selectRows tables now stmt = .ok (.error e) := by
  rw [Executor.selectRows]
  cases hleft : tables.lookup (Bytes.toUpper stmt.tableName) with
  | none => exact ⟨_, rfl⟩
  | some left =>
      simp only [hjoin, Executor.selectJoin]
      cases hright : tables.lookup (Bytes.toUpper join.rightTable) with
      | none => exact ⟨_, rfl⟩
      | some right =>
          rcases h left right hleft hright with hnone | hnone
          · simp only [hnone]
            exact ⟨_, rfl⟩
          · simp only [hnone]
            cases left.schema.findColumn (Bytes.toUpper join.leftCol.column) with
            | none => exact ⟨_, rfl⟩
            | some i => exact ⟨_, rfl⟩

theorem joinBound_lt {j : JoinTables} {w : WhereClause} {side : Side} {idx : Nat} {v : Value}
    (h : joinBound j w = some (side, idx, v)) :
    idx < (pick side j.left j.right).columns.length := by
  simp only [joinBound, Option.bind_eq_bind, Option.bind_eq_some_iff] at h
  obtain ⟨⟨side', idx'⟩, -, col, hcol, v', -, heq⟩ := h
  simp only [Option.pure_def, Option.some.injEq, Prod.mk.injEq] at heq
  obtain ⟨rfl, rfl, -⟩ := heq
  exact (List.getElem?_eq_some_iff.mp hcol).1

/-- The pairs of a join are pairs of rows that the `WHERE` holds of. -/
theorem joinPairs_where {j : JoinTables} {w : WhereClause} {op : CmpOp} {side : Side} {idx : Nat}
    {v : Value} (hbound : joinBound j w = some (side, idx, v))
    (hl : ∀ l ∈ leftRows, l.length = j.left.columns.length)
    (hr : ∀ r ∈ rightRows, r.length = j.right.columns.length) {p : Row × Row}
    (hp : p ∈ joinPairs j (some w) op leftIdx rightIdx leftRows rightRows) :
    p.1 ∈ leftRows ∧ p.2 ∈ rightRows ∧ ∃ actual, (pick side p.1 p.2)[idx]? = some actual ∧
      (Executor.convertOp w.op).holds actual v = true := by
  obtain ⟨hp, hholds⟩ := List.mem_filter.mp hp
  obtain ⟨hpl, hpr⟩ := List.mem_product.mp (List.mem_of_mem_filter hp)
  have hw : Widths j p.1 p.2 := ⟨hl _ hpl, hr _ hpr⟩
  have hlt : idx < (pick side p.1 p.2).length := by
    rw [hw.pick]
    exact joinBound_lt hbound
  simp only [whereHolds, hbound] at hholds
  refine ⟨hpl, hpr, _, List.getElem?_eq_getElem hlt, ?_⟩
  rwa [List.getD_eq_getElem?_getD, List.getElem?_eq_getElem hlt, Option.getD_some] at hholds

end Query

/-! ## The `WHERE` of a join -/

section Where

variable [FloatLib] {ex : Executor} {stmt : SelectStmt} {join : JoinClause} {w : WhereClause}

/-- A join fails or keeps its `WHERE` just when it is refused for another
reason or its `WHERE` is understood. -/
theorem execSelect_keeps_where_iff (hreach : Reachable ex) (hjoin : stmt.join = some join)
    (hwhere : stmt.whereClause = some w) {rawSql : Bytes}
    (hmiss : ∃ cache, Executor.lookupCache ex.cache rawSql = .ok (cache, none)) (now : Int64) :
    (∃ ex' r, ex.execSelect now stmt rawSql = .ok (ex', r) ∧
      (r.success = true → WhereKept ex.tables now stmt join w r.rows)) ↔
      WhereUnderstood ex.tables now stmt join w := by
  have hcons := reachable_consistent hreach
  rw [hcons.execSelect_miss hmiss]
  by_cases href : JoinRefused ex.tables stmt join
  · obtain ⟨e, hrun⟩ := selectRows_refused now hjoin href
    exact iff_of_true ⟨_, hrun, fun h => absurd h (by simp [resultOf, QueryResult.failure])⟩
      (.inl href)
  · obtain ⟨left, right, i, k, hleft, hright, hi, hk⟩ := exists_of_not_refused href
    have hl := (hcons.tables _ left hleft).indexed
    have hr := (hcons.tables _ right hright).indexed
    rw [selectRows_join now stmt join hjoin hleft hright hl hr hi hk]
    constructor
    · rintro ⟨res, hrun, hkept⟩
      obtain ⟨leftRows, hL, hrun⟩ := Outcome.bind_eq_ok.mp hrun
      obtain ⟨rightRows, hR, hrun⟩ := Outcome.bind_eq_ok.mp hrun
      obtain rfl := Except.ok.inj hrun
      refine .inr ⟨left, right, hleft, hright, ⟨_, hL⟩, ⟨_, hR⟩, ?_⟩
      cases hout : outputs (joinOf stmt join left right) stmt with
      | error e => exact .inl ⟨e, rfl⟩
      | ok cols =>
          rw [joinResult, hout] at hkept
          obtain ⟨left', right', _, _, _, _, _, _, hleft', hright', -, -, -, hbound, -⟩ := hkept rfl
          obtain rfl := Option.some.inj (hleft.symm.trans hleft')
          obtain rfl := Option.some.inj (hright.symm.trans hright')
          exact .inr (by simp [hbound])
    · rintro (href' | ⟨left', right', hleft', hright', ⟨leftRows, hL⟩, ⟨rightRows, hR⟩, hcases⟩)
      · exact absurd href' href
      · obtain rfl := Option.some.inj (hleft.symm.trans hleft')
        obtain rfl := Option.some.inj (hright.symm.trans hright')
        refine ⟨_, by rw [hL, Outcome.bind_ok, hR, Outcome.bind_ok], ?_⟩
        cases hout : outputs (joinOf stmt join left right) stmt with
        | error e =>
            rw [joinResult, hout]
            exact fun h => absurd h (by simp [resultOf, QueryResult.failure])
        | ok cols =>
            have hbound : joinBound (joinOf stmt join left right) w ≠ none :=
              hcases.resolve_left (by rintro ⟨e, he⟩; exact absurd (hout.symm.trans he) (by simp))
            obtain ⟨⟨side, idx, v⟩, hbound⟩ := Option.ne_none_iff_exists'.mp hbound
            rw [joinResult, hout, hwhere]
            refine fun _ => ⟨left, right, leftRows, rightRows, cols, side, idx, v, hleft, hright,
              hL, hR, hout, hbound, fun out hmem => ?_⟩
            obtain ⟨p, hp, rfl⟩ := List.mem_map.mp hmem
            obtain ⟨hpl, hpr, hholds⟩ :=
              joinPairs_where hbound (scanAll_length hL) (scanAll_length hR) hp
            exact ⟨p.1, hpl, p.2, hpr, rfl, hholds⟩

end Where

section Runs

attribute [local instance] noDoubles

/-- Two tables of two rows each. -/
def twoTables : List Bytes :=
  [Bytes.lit "CREATE TABLE A (ID INT, X INT)", Bytes.lit "CREATE TABLE B (ID INT, Y INT)",
    Bytes.lit "INSERT INTO A VALUES (1, 5), (2, 6)",
    Bytes.lit "INSERT INTO B VALUES (1, 7), (2, 8)"]

/-- `A INNER JOIN B ON A.ID = B.` and a column. -/
def joinB (column : Bytes) : JoinClause :=
  ⟨Bytes.lit "B", ⟨Bytes.lit "A", Bytes.lit "ID"⟩, ⟨Bytes.lit "B", column⟩, .eq⟩

/-- `B.Y > 7` -/
def bigY : WhereClause := ⟨⟨Bytes.lit "B", Bytes.lit "Y"⟩, .gt, Bytes.lit "7"⟩

/-- `NOSUCH = 5` -/
def noSuch : WhereClause := ⟨⟨[], Bytes.lit "NOSUCH"⟩, .eq, Bytes.lit "5"⟩

/-- `SELECT * FROM A` with a join and a `WHERE`. -/
def selectFrom (join : JoinClause) (w : Option WhereClause) : SelectStmt :=
  ⟨Bytes.lit "A", [], true, w, some join⟩

/-- `SELECT * FROM A INNER JOIN B ON A.ID = B.ID WHERE NOSUCH = 5` -/
def lostWhere : SelectStmt := selectFrom (joinB (Bytes.lit "ID")) (some noSuch)

/-- `SELECT * FROM A INNER JOIN B ON A.ID = B.ID WHERE B.Y > 7` -/
def keptWhere : SelectStmt := selectFrom (joinB (Bytes.lit "ID")) (some bigY)

/-- `SELECT * FROM A INNER JOIN B ON A.ID = B.Y` -/
def onY : SelectStmt := selectFrom (joinB (Bytes.lit "Y")) none

/-- `SELECT * FROM A INNER JOIN B ON B.Y = A.ID` -/
def onYSwapped : SelectStmt := selectFrom (swapOn (joinB (Bytes.lit "Y"))) none

/-- `SELECT * FROM A INNER JOIN B ON A.ID = B.ID` with another operator. -/
def onIdText (op : String) : Bytes :=
  Bytes.lit "SELECT * FROM A INNER JOIN B ON A.ID " ++ Bytes.lit op ++ Bytes.lit " B.ID"

/-- The state after the statements, and what queries do in it. -/
structure TwoTables (ex : Executor) (a b : Table) : Prop where
  reach : Reachable ex
  left : ex.tables.lookup (Bytes.lit "A") = some a
  right : ex.tables.lookup (Bytes.lit "B") = some b
  leftRows : a.scanAll 0 = .ok [[.int 1, .int 5], [.int 2, .int 6]]
  rightRows : b.scanAll 0 = .ok [[.int 1, .int 7], [.int 2, .int 8]]
  leftId : a.schema.findColumn (Bytes.lit "ID") = some 0
  rightId : b.schema.findColumn (Bytes.lit "ID") = some 0
  kept : joinBound (joinOf keptWhere (joinB (Bytes.lit "ID")) a b) bigY ≠ none
  lost : joinBound (joinOf lostWhere (joinB (Bytes.lit "ID")) a b) noSuch = none
  dropped : ∃ ex' names, ex.execSelect 0 lostWhere [] = .ok (ex', .answer ⟨names,
    [[.int 1, .int 5, .int 1, .int 7], [.int 2, .int 6, .int 2, .int 8]]⟩)
  onY : ∃ ex' names, ex.execSelect 0 onY [] = .ok (ex', .answer ⟨names, []⟩)
  onYSwapped : ∃ ex', ex.execSelect 0 onYSwapped [] =
    .ok (ex', .failure (Bytes.lit "Unknown column in JOIN ON (left): Y"))
  uncached : ∃ cache, Executor.lookupCache ex.cache (onIdText "=") = .ok (cache, none)

set_option synthInstance.maxSize 1000 in
theorem twoTables_run : ∃ ex a b, TwoTables ex a b := by
  have hrun : (do
      let s ← runAll 0 Executor.new twoTables
      let a ← Executor.cell (s.1.tables.lookup (Bytes.lit "A")).toList 0
      let b ← Executor.cell (s.1.tables.lookup (Bytes.lit "B")).toList 0
      let leftRows ← a.scanAll 0
      let rightRows ← b.scanAll 0
      let lost ← s.1.execSelect 0 lostWhere []
      let on ← s.1.execSelect 0 onY []
      let on' ← s.1.execSelect 0 onYSwapped []
      let found ← Executor.lookupCache s.1.cache (onIdText "=")
      .ok ((leftRows, rightRows),
        (a.schema.findColumn (Bytes.lit "ID"), b.schema.findColumn (Bytes.lit "ID")),
        ((joinBound (joinOf keptWhere (joinB (Bytes.lit "ID")) a b) bigY).isSome,
          (joinBound (joinOf lostWhere (joinB (Bytes.lit "ID")) a b) noSuch).isNone),
        found.2.isNone, [lost.2, on.2, on'.2]) : Outcome _) =
      .ok (([[.int 1, .int 5], [.int 2, .int 6]], [[.int 1, .int 7], [.int 2, .int 8]]),
        (some 0, some 0), (true, true), true,
        [.answer ⟨[Bytes.lit "A.ID", Bytes.lit "A.X", Bytes.lit "B.ID", Bytes.lit "B.Y"],
          [[.int 1, .int 5, .int 1, .int 7], [.int 2, .int 6, .int 2, .int 8]]⟩,
        .answer ⟨[Bytes.lit "A.ID", Bytes.lit "A.X", Bytes.lit "B.ID", Bytes.lit "B.Y"], []⟩,
        .failure (Bytes.lit "Unknown column in JOIN ON (left): Y")]) := by
    decide +kernel
  obtain ⟨⟨ex, rs⟩, hall, hrun⟩ := Outcome.bind_eq_ok.mp hrun
  obtain ⟨a, ha, hrun⟩ := Outcome.bind_eq_ok.mp hrun
  obtain ⟨b, hb, hrun⟩ := Outcome.bind_eq_ok.mp hrun
  obtain ⟨leftRows, hL, hrun⟩ := Outcome.bind_eq_ok.mp hrun
  obtain ⟨rightRows, hR, hrun⟩ := Outcome.bind_eq_ok.mp hrun
  obtain ⟨⟨ex₁, lost⟩, hlost, hrun⟩ := Outcome.bind_eq_ok.mp hrun
  obtain ⟨⟨ex₂, on⟩, hon, hrun⟩ := Outcome.bind_eq_ok.mp hrun
  obtain ⟨⟨ex₃, on'⟩, hon', hrun⟩ := Outcome.bind_eq_ok.mp hrun
  obtain ⟨⟨cache, cached⟩, hcache, hrun⟩ := Outcome.bind_eq_ok.mp hrun
  simp only [Except.ok.injEq, Prod.mk.injEq, List.cons.injEq, and_true] at hrun
  obtain ⟨⟨rfl, rfl⟩, ⟨hid, hid'⟩, ⟨hkept, hno⟩, hnone, rfl, rfl, rfl⟩ := hrun
  obtain rfl := Option.isNone_iff_eq_none.mp hnone
  exact ⟨ex, a, b, reachable_runAll .new hall, cell_toList ha, cell_toList hb, hL, hR, hid, hid',
    Option.isSome_iff_ne_none.mp hkept, Option.isNone_iff_eq_none.mp hno, ⟨ex₁, _, hlost⟩,
    ⟨ex₂, _, hon⟩, ⟨ex₃, hon'⟩, cache, hcache⟩

theorem execSelect_keeps_where_iff_bigY : ∃ ex, Reachable ex ∧
    ∃ ex' r, ex.execSelect 0 keptWhere [] = .ok (ex', r) ∧
      (r.success = true →
        WhereKept ex.tables 0 keptWhere (joinB (Bytes.lit "ID")) bigY r.rows) := by
  obtain ⟨ex, a, b, h⟩ := twoTables_run
  exact ⟨ex, h.reach, (execSelect_keeps_where_iff h.reach rfl rfl ⟨_, rfl⟩ 0).mpr
    (.inr ⟨a, b, h.left, h.right, ⟨_, h.leftRows⟩, ⟨_, h.rightRows⟩, .inr h.kept⟩)⟩

/-- A column that neither table has: all rows of the join are returned. -/
theorem join_drops_where : ∃ ex ex' r, Reachable ex ∧
    (∃ cache, Executor.lookupCache ex.cache [] = .ok (cache, none)) ∧
    ex.execSelect 0 lostWhere [] = .ok (ex', r) ∧ r.success = true ∧
    r.rows = [[.int 1, .int 5, .int 1, .int 7], [.int 2, .int 6, .int 2, .int 8]] ∧
    ¬ WhereKept ex.tables 0 lostWhere (joinB (Bytes.lit "ID")) noSuch r.rows := by
  obtain ⟨ex, a, b, h⟩ := twoTables_run
  obtain ⟨ex', names, hsel⟩ := h.dropped
  refine ⟨ex, ex', _, h.reach, ⟨_, rfl⟩, hsel, rfl, rfl, ?_⟩
  rintro ⟨left, right, _, _, _, _, _, _, hleft, hright, -, -, -, hbound, -⟩
  obtain rfl := Option.some.inj (h.left.symm.trans hleft)
  obtain rfl := Option.some.inj (h.right.symm.trans hright)
  exact absurd (h.lost.symm.trans hbound) (by simp)

end Runs

/-! ## The two sides of the `ON` -/

section On

variable [FloatLib] {ex : Executor} {stmt : SelectStmt} {join : JoinClause} {left right : Table}
  {leftIdx rightIdx : Nat} {now : Int64}

/-- The statement with its `ON` the other way round looks for each column in
the other table. -/
theorem selectRows_swapped (stmt : SelectStmt) (join : JoinClause) (hreach : Reachable ex)
    (hleft : ex.tables.lookup (Bytes.toUpper stmt.tableName) = some left)
    (hright : ex.tables.lookup (Bytes.toUpper join.rightTable) = some right)
    {leftRows rightRows : List Row} (hL : left.scanAll now = .ok leftRows)
    (hR : right.scanAll now = .ok rightRows) :
    (∃ leftIdx rightIdx,
      left.schema.findColumn (Bytes.toUpper join.rightCol.column) = some leftIdx ∧
      right.schema.findColumn (Bytes.toUpper join.leftCol.column) = some rightIdx ∧
      Executor.selectRows ex.tables now { stmt with join := some (swapOn join) } =
        .ok (joinResult (joinOf stmt join left right) stmt (Executor.convertOp join.op) leftIdx
          rightIdx leftRows rightRows)) ∨
    (¬ (∃ leftIdx rightIdx,
      left.schema.findColumn (Bytes.toUpper join.rightCol.column) = some leftIdx ∧
      right.schema.findColumn (Bytes.toUpper join.leftCol.column) = some rightIdx) ∧
      ∃ e, Executor.selectRows ex.tables now { stmt with join := some (swapOn join) } =
        .ok (.error e)) := by
  have hcons := reachable_consistent hreach
  by_cases href : JoinRefused ex.tables { stmt with join := some (swapOn join) } (swapOn join)
  · refine .inr ⟨?_, selectRows_refused now rfl href⟩
    rintro ⟨i, k, hi, hk⟩
    rcases href left right hleft hright with hnone | hnone
    · exact absurd (hnone.symm.trans hi) (by simp)
    · exact absurd (hnone.symm.trans hk) (by simp)
  · obtain ⟨left', right', i, k, hleft', hright', hi, hk⟩ := exists_of_not_refused href
    obtain rfl := Option.some.inj (hleft.symm.trans hleft')
    obtain rfl := Option.some.inj (hright.symm.trans hright')
    refine .inl ⟨i, k, hi, hk, ?_⟩
    have hrun := selectRows_join now { stmt with join := some (swapOn join) } (swapOn join) rfl
      hleft hright (hcons.tables _ left hleft).indexed (hcons.tables _ right hright).indexed hi hk
    rw [hL, Outcome.bind_ok, hR, Outcome.bind_ok] at hrun
    exact hrun

end On

section Runs

attribute [local instance] noDoubles

end Runs

end FlexQL.Proofs
