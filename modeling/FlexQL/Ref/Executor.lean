import FlexQL.Ref.LRUCache
import FlexQL.Ref.Parser
import FlexQL.Ref.Table

/-!
# The executor (`executor.h`, `executor.cpp`)

Statements run against a map of tables. `now` is what `std::time` returns
during the call. A `SELECT` computes its answer from the tables alone; the
cache is consulted before and filled behind it.
-/

namespace FlexQL.Ref

open Lib

/-- `Executor::QueryResult` -/
structure QueryResult where
  success : Bool
  error : Bytes
  columnNames : List Bytes
  rows : List Row
  message : Bytes
  deriving DecidableEq, Repr

namespace QueryResult

def failure (error : Bytes) : QueryResult := ⟨false, error, [], [], []⟩

def done (message : Bytes) : QueryResult := ⟨true, [], [], [], message⟩

def answer (r : CachedResult) : QueryResult := ⟨true, [], r.columnNames, r.rows, []⟩

end QueryResult

/-- `Executor`, with the locks left out. -/
structure Executor where
  tables : Finmap fun _ : Bytes => Table
  cache : LRUCache

namespace Executor

/-- The constructor. -/
def new : Executor := ⟨∅, LRUCache.new lruCacheCapacity⟩

/-- `convert_op` -/
def convertOp : AstCmpOp → CmpOp
  | .eq => .eq
  | .ne => .ne
  | .lt => .lt
  | .le => .le
  | .gt => .gt
  | .ge => .ge

variable [FloatLib]

/-- `parse_literal` -/
def parseLiteral (literal : Bytes) (type : DataType) : Except Bytes Value :=
  match type with
  | .int => match stoi literal with
      | some v => .ok (.int v)
      | none => .error (Bytes.lit "Invalid INT literal: " ++ literal)
  | .decimal => match FloatLib.stod literal with
      | some v => .ok (.decimal v)
      | none => .error (Bytes.lit "Invalid DECIMAL literal: " ++ literal)
  | .varchar => .ok (.varchar literal)
  | .datetime => match stoll literal with
      | some v => .ok (.datetime v)
      | none => .error (Bytes.lit "Invalid DATETIME literal: " ++ literal)
  | .unknown _ => .error (Bytes.lit "Unknown data type")

/-! ## `CREATE TABLE` -/

/-- The type a type name stands for. -/
def columnDataType (typeName : Bytes) : Option DataType :=
  let upper := Bytes.toUpper typeName
  if upper = Bytes.lit "INT" then some .int
  else if upper = Bytes.lit "DECIMAL" then some .decimal
  else if upper = Bytes.lit "DATETIME" then some .datetime
  else if upper.take 7 = Bytes.lit "VARCHAR" then some .varchar
  else none

/-- The loop that builds the schema. -/
def buildSchema (s : Schema) : List AstColumnDef → Except Bytes Schema
  | [] => .ok s
  | col :: cols =>
      match columnDataType col.typeName with
      | none => .error (Bytes.lit "Unknown data type: " ++ col.typeName)
      | some dt =>
          let maxLen := if dt = .varchar ∧ 0 < col.varcharLen then col.varcharLen
            else defaultVarcharMax
          buildSchema (s.addColumn (Bytes.toUpper col.name) dt maxLen) cols

/-- `exec_create_table` -/
def execCreateTable (ex : Executor) (stmt : CreateTableStmt) :
    Outcome (Executor × QueryResult) :=
  let tableName := Bytes.toUpper stmt.tableName
  if (ex.tables.lookup tableName).isSome then
    .ok (ex, .failure (Bytes.lit "Table already exists: " ++ tableName))
  else match buildSchema Schema.empty stmt.columns with
    | .error e => .ok (ex, .failure e)
    | .ok schema => do
        let table ← Table.new tableName schema defaultTtlSeconds
        .ok ({ ex with tables := ex.tables.insert tableName table },
          .done (Bytes.lit "Table " ++ tableName ++ Bytes.lit " created"))

/-! ## `INSERT` -/

/-- The values of a tuple, or the error. -/
def parseTuple (schema : Schema) (rowVals : List Bytes) : Except Bytes Row :=
  if rowVals.length ≠ schema.columns.length then
    .error (Bytes.lit "Column count mismatch: expected " ++
      Bytes.ofNat schema.columns.length ++ Bytes.lit ", got " ++ Bytes.ofNat rowVals.length)
  else (rowVals.zip schema.columns).mapM fun p => parseLiteral p.1 p.2.type

/-- The loop over the tuples: the table, how many rows went in, and the error
that stopped it. -/
def insertTuples (now : Int64) : List (List Bytes) → Table → Nat →
    Outcome (Table × Nat × Option Bytes)
  | [], t, n => .ok (t, n, none)
  | rowVals :: rest, t, n =>
      match parseTuple t.schema rowVals with
      | .error e => .ok (t, n, some e)
      | .ok row => do
          let (t, e) ← t.insert now row
          match e with
          | some e => .ok (t, n, some e)
          | none => insertTuples now rest t (n + 1)

/-- `exec_insert`; a failure half way keeps the rows that went in and leaves
the cache alone. -/
def execInsert (ex : Executor) (now : Int64) (stmt : InsertStmt) :
    Outcome (Executor × QueryResult) :=
  let tableName := Bytes.toUpper stmt.tableName
  match ex.tables.lookup tableName with
  | none => .ok (ex, .failure (Bytes.lit "Table not found: " ++ tableName))
  | some table => do
      let (table, n, error) ← insertTuples now stmt.batchValues table 0
      let tables := ex.tables.insert tableName table
      match error with
      | some e => .ok ({ ex with tables := tables }, .failure e)
      | none => do
          let cache ← ex.cache.invalidateTable tableName
          .ok (⟨tables, cache⟩, .done (Bytes.ofNat n ++ Bytes.lit " rows inserted"))

/-! ## `SELECT` -/

/-- An element of a vector. -/
def cell {α : Type} (row : List α) (idx : Nat) : Outcome α :=
  match row[idx]? with
  | some v => .ok v
  | none => .error .undefined

/-- The columns are all of them. -/
def selectsAll (stmt : SelectStmt) : Bool :=
  stmt.selectAll || stmt.columns.isEmpty || (match stmt.columns with
    | [c] => c.column = Bytes.lit "*"
    | _ => false)

/-- Where the value of an output column comes from. -/
inductive Side where
  | left
  | right
  deriving DecidableEq, Repr

/-- Two joined tables under their names. -/
structure JoinTables where
  leftName : Bytes
  left : Schema
  rightName : Bytes
  right : Schema

namespace JoinTables

/-- The column of a table whose name the qualifier allows. -/
def resolve (j : JoinTables) (side : Side) (table column : Bytes) : Option Nat :=
  match side with
  | .left => if table = j.leftName ∨ table = [] then j.left.findColumn column else none
  | .right => if table = j.rightName ∨ table = [] then j.right.findColumn column else none

/-- The left table first, then the right one. -/
def find (j : JoinTables) (table column : Bytes) : Option (Side × Nat) :=
  match j.resolve .left table column with
  | some idx => some (.left, idx)
  | none => (j.resolve .right table column).map fun idx => (.right, idx)

/-- The names and sources of all columns. -/
def allColumns (j : JoinTables) : List (Bytes × Side × Nat) :=
  j.left.columns.zipIdx.map (fun c => (j.leftName ++ Bytes.lit "." ++ c.1.name, .left, c.2)) ++
    j.right.columns.zipIdx.map fun c =>
      (j.rightName ++ Bytes.lit "." ++ c.1.name, .right, c.2)

/-- The names and sources of the selected columns, or the error. -/
def selectedColumns (j : JoinTables) (refs : List ColumnRef) :
    Except Bytes (List (Bytes × Side × Nat)) :=
  refs.mapM fun cr =>
    let tbl := Bytes.toUpper cr.table
    let col := Bytes.toUpper cr.column
    let name := if tbl.isEmpty then col else tbl ++ Bytes.lit "." ++ col
    match j.find tbl col with
    | some source => .ok (name, source)
    | none => .error (Bytes.lit "Unknown column in SELECT: " ++ name)

/-- The schema and the row of a side. -/
def pick {α : Type} (side : Side) (left right : α) : α :=
  match side with
  | .left => left
  | .right => right

/-- The `WHERE` of a join on a pair of rows; it passes when the column is in
neither table or the literal is not one of its type. -/
def passes (j : JoinTables) (w : WhereClause) (leftRow rightRow : Row) : Outcome Bool :=
  match j.find (Bytes.toUpper w.column.table) (Bytes.toUpper w.column.column) with
  | none => .ok true
  | some (side, wi) => do
      let col ← cell (pick side j.left j.right).columns wi
      match parseLiteral w.literal col.type with
      | .error _ => .ok true
      | .ok wv => do
          let actual ← cell (pick side leftRow rightRow) wi
          .ok ((convertOp w.op).holds actual wv)

/-- The optional `WHERE`. -/
def allows (j : JoinTables) (whereClause : Option WhereClause) (leftRow rightRow : Row) :
    Outcome Bool :=
  match whereClause with
  | none => .ok true
  | some w => j.passes w leftRow rightRow

/-- The output for a pair of rows that match: one row, or none. -/
def emit (j : JoinTables) (whereClause : Option WhereClause) (sources : List (Side × Nat))
    (leftRow rightRow : Row) : Outcome (List Row) := do
  let pass ← j.allows whereClause leftRow rightRow
  if pass then
    let out ← sources.mapM fun src => cell (pick src.1 leftRow rightRow) src.2
    .ok [out]
  else .ok []

end JoinTables

/-- `hash_index[key].push_back(i)` -/
def hashPush (key : Value) (i : Nat) : List (Value × List Nat) → List (Value × List Nat)
  | [] => [(key, [i])]
  | e :: es => if key.eq e.1 then (e.1, e.2 ++ [i]) :: es else e :: hashPush key i es

/-- The loop that fills `hash_index`. -/
def hashRows (rightIdx : Nat) : List Row → Nat → List (Value × List Nat) →
    Outcome (List (Value × List Nat))
  | [], _, index => .ok index
  | row :: rows, i, index => do
      let key ← cell row rightIdx
      hashRows rightIdx rows (i + 1) (hashPush key i index)

/-- The output for one row after another. -/
def forRows {α : Type} (f : α → Outcome (List Row)) : List α → Outcome (List Row)
  | [] => .ok []
  | a :: l => do
      let first ← f a
      let rest ← forRows f l
      .ok (first ++ rest)

/-- The hash join. -/
def hashJoin (emit : Row → Row → Outcome (List Row)) (leftIdx rightIdx : Nat)
    (leftRows rightRows : List Row) : Outcome (List Row) := do
  let index ← hashRows rightIdx rightRows 0 []
  forRows (fun leftRow => do
    let key ← cell leftRow leftIdx
    match index.find? fun e => key.eq e.1 with
    | none => .ok []
    | some e => forRows (fun ri => do
        let rightRow ← cell rightRows ri
        emit leftRow rightRow) e.2) leftRows

/-- The nested loops for the other operators. -/
def nestedLoopJoin (emit : Row → Row → Outcome (List Row)) (op : CmpOp) (leftIdx rightIdx : Nat)
    (leftRows rightRows : List Row) : Outcome (List Row) :=
  forRows (fun leftRow => do
    let leftVal ← cell leftRow leftIdx
    forRows (fun rightRow => do
      let rightVal ← cell rightRow rightIdx
      if op.holds leftVal rightVal then emit leftRow rightRow else .ok []) rightRows) leftRows

/-- The rows of a join, by the operator. -/
def joinRows (emit : Row → Row → Outcome (List Row)) (op : AstCmpOp) (leftIdx rightIdx : Nat)
    (leftRows rightRows : List Row) : Outcome (List Row) :=
  if op = .eq then hashJoin emit leftIdx rightIdx leftRows rightRows
  else nestedLoopJoin emit (convertOp op) leftIdx rightIdx leftRows rightRows

/-- The part of `exec_select` for an `INNER JOIN`. -/
def selectJoin (tables : Finmap fun _ : Bytes => Table) (now : Int64) (stmt : SelectStmt)
    (tableName : Bytes) (table : Table) (join : JoinClause) :
    Outcome (Except Bytes CachedResult) :=
  let rightName := Bytes.toUpper join.rightTable
  match tables.lookup rightName with
  | none => .ok (.error (Bytes.lit "Join table not found: " ++ rightName))
  | some rightTable =>
      let leftOn := Bytes.toUpper join.leftCol.column
      let rightOn := Bytes.toUpper join.rightCol.column
      match table.schema.findColumn leftOn, rightTable.schema.findColumn rightOn with
      | none, _ => .ok (.error (Bytes.lit "Unknown column in JOIN ON (left): " ++ leftOn))
      | some _, none =>
          .ok (.error (Bytes.lit "Unknown column in JOIN ON (right): " ++ rightOn))
      | some leftIdx, some rightIdx => do
          let leftRows ← table.scanAll now
          let rightRows ← rightTable.scanAll now
          let j : JoinTables := ⟨tableName, table.schema, rightName, rightTable.schema⟩
          match if selectsAll stmt then .ok j.allColumns else j.selectedColumns stmt.columns with
          | .error e => .ok (.error e)
          | .ok columns => do
              let rows ← joinRows (j.emit stmt.whereClause (columns.map (·.2))) join.op leftIdx
                rightIdx leftRows rightRows
              .ok (.ok ⟨columns.map (·.1), rows⟩)

/-- The indices of the selected columns, or the error. -/
def projection (schema : Schema) (names : List Bytes) : Except Bytes (List Nat) :=
  names.mapM fun name =>
    match schema.findColumn name with
    | some idx => .ok idx
    | none => .error (Bytes.lit "Unknown column: " ++ name)

/-- The rows of a `WHERE`: by the index for the first column, else by a scan. -/
def whereRows (now : Int64) (table : Table) (colIdx : Nat) (op : CmpOp) (value : Value) :
    Outcome (List Row) :=
  if colIdx = table.schema.pkIndex then table.indexRange now op value []
  else table.scanWhere now colIdx op value []

/-- The rows of a query on one table, before the projection. -/
def scanTable (now : Int64) (table : Table) : Option WhereClause →
    Outcome (Except Bytes (List Row))
  | none => do
      let rows ← table.scanAll now
      .ok (.ok rows)
  | some w =>
      let colName := Bytes.toUpper w.column.column
      match table.schema.findColumn colName with
      | none => .ok (.error (Bytes.lit "Unknown column in WHERE: " ++ colName))
      | some colIdx => do
          let col ← cell table.schema.columns colIdx
          match parseLiteral w.literal col.type with
          | .error e => .ok (.error e)
          | .ok value => do
              let rows ← whereRows now table colIdx (convertOp w.op) value
              .ok (.ok rows)

/-- The rows with the columns at the indices, if these are not all columns in
order. -/
def project (width : Nat) (indices : List Nat) (rows : List Row) : Outcome (List Row) :=
  if indices = List.range width then .ok rows
  else rows.mapM fun row => indices.mapM (cell row)

/-- The part of `exec_select` for one table. -/
def selectSingle (now : Int64) (stmt : SelectStmt) (table : Table) :
    Outcome (Except Bytes CachedResult) :=
  let names := if selectsAll stmt then table.schema.columns.map (·.name)
    else stmt.columns.map fun cr => Bytes.toUpper cr.column
  match projection table.schema names with
  | .error e => .ok (.error e)
  | .ok indices => do
      match ← scanTable now table stmt.whereClause with
      | .error e => .ok (.error e)
      | .ok rows => do
          let rows ← project table.schema.columns.length indices rows
          .ok (.ok ⟨names, rows⟩)

/-- `exec_select` behind the cache: the answer, or the error. -/
def selectRows (tables : Finmap fun _ : Bytes => Table) (now : Int64) (stmt : SelectStmt) :
    Outcome (Except Bytes CachedResult) :=
  let tableName := Bytes.toUpper stmt.tableName
  match tables.lookup tableName with
  | none => .ok (.error (Bytes.lit "Table not found: " ++ tableName))
  | some table =>
      match stmt.join with
      | some join => selectJoin tables now stmt tableName table join
      | none => selectSingle now stmt table

/-- The cache, if there is a text to look up. -/
def lookupCache (cache : LRUCache) (rawSql : Bytes) : Outcome (LRUCache × Option CachedResult) :=
  if rawSql.isEmpty then .ok (cache, none) else cache.get rawSql

/-- The cache with the answer, if there is a text to store it under. -/
def fillCache (cache : LRUCache) (rawSql : Bytes) (r : CachedResult) : Outcome LRUCache :=
  if rawSql.isEmpty then .ok cache else cache.put rawSql r

/-- `exec_select`; without a text the cache is not used. -/
def execSelect (ex : Executor) (now : Int64) (stmt : SelectStmt) (rawSql : Bytes) :
    Outcome (Executor × QueryResult) := do
  let (cache, cached) ← lookupCache ex.cache rawSql
  match cached with
  | some r => .ok ({ ex with cache := cache }, .answer r)
  | none =>
      match ← selectRows ex.tables now stmt with
      | .error e => .ok ({ ex with cache := cache }, .failure e)
      | .ok r => do
          let cache ← fillCache cache rawSql r
          .ok ({ ex with cache := cache }, .answer r)

/-! ## Statements -/

/-- `execute` -/
def execute (ex : Executor) (now : Int64) (stmt : Statement) (rawSql : Bytes) :
    Outcome (Executor × QueryResult) :=
  match stmt with
  | .createTable stmt => ex.execCreateTable stmt
  | .insert stmt => ex.execInsert now stmt
  | .select stmt => ex.execSelect now stmt rawSql

/-- `execute_sql` -/
def executeSql (ex : Executor) (now : Int64) (sql : Bytes) : Outcome (Executor × QueryResult) := do
  match ← parseSql sql with
  | .error e => .ok (ex, .failure (Bytes.lit "Parse error: " ++ e))
  | .ok stmt => ex.execute now stmt sql

/-- `restore_table` -/
def restoreTable (ex : Executor) (name : Bytes) (table : Table) : Executor :=
  { ex with tables := ex.tables.insert name table }

end Executor

end FlexQL.Ref
