import FlexQL.Lib.Actions
import FlexQL.Spec.Executor
import FlexQL.Spec.LRUCache

/-!
# When the query cache cannot be seen

The cache keeps the answers of earlier queries under their normalized texts.
It shows in two ways: two queries that ask for different things can have the
same normalized text, and a row can be stored without the answers that lack it
being dropped.
-/

namespace FlexQL.Spec

open Lib FlexQL.Ref

/-- The names in upper case, as the executor takes them. -/
def upperRef (c : ColumnRef) : ColumnRef := ⟨Bytes.toUpper c.table, Bytes.toUpper c.column⟩

/-- The query with its names in upper case. Literals stay as they are. -/
def upperSelect (sel : SelectStmt) : SelectStmt where
  tableName := Bytes.toUpper sel.tableName
  columns := sel.columns.map upperRef
  selectAll := sel.selectAll
  whereClause := sel.whereClause.map fun w => { w with column := upperRef w.column }
  join := sel.join.map fun j =>
    ⟨Bytes.toUpper j.rightTable, upperRef j.leftCol, upperRef j.rightCol, j.op⟩

/-- The tables a query reads. -/
def reads (sel : SelectStmt) : List Bytes :=
  Bytes.toUpper sel.tableName :: (sel.join.map fun j => Bytes.toUpper j.rightTable).toList

/-- An earlier text that is a query whose answer may still be in the cache. -/
structure Cached (seen : List Bytes) (ex : Executor) (text : Bytes) (sel : SelectStmt) : Prop where
  seen : text ∈ seen
  query : parseSql text = .ok (.ok (.select sel))
  kept : (ex.cache.cacheMap.lookup (LRUCache.normalize text)).isSome

variable [FloatLib]

/-- `execute_sql` of an executor with no cache: nothing is looked up and
nothing is stored. -/
def executeUncached (now : Int64) (ex : Executor) (sql : Bytes) :
    Outcome (Executor × QueryResult) := do
  match ← parseSql sql with
  | .error e => .ok (ex, .failure (Bytes.lit "Parse error: " ++ e))
  | .ok stmt => ex.execute now stmt []

/-- The statement stores a row, if only its first. -/
def StoresRow (ex : Executor) (stmt : InsertStmt) : Prop :=
  ∃ table first rest, ex.tables.lookup (Bytes.toUpper stmt.tableName) = some table ∧
    stmt.batchValues = first :: rest ∧ Admits table first

/-- What a text must meet for the cache not to show, given the texts before
it: a query is the one whose answer is kept under its normalized text, and an
`INSERT` that stores a row stores them all and drops the answers that lack it. -/
structure CacheSafe (seen : List Bytes) (ex : Executor) (sql : Bytes) : Prop where
  select : ∀ sel, parseSql sql = .ok (.ok (.select sel)) →
    ∀ text sel', Cached seen ex text sel' → LRUCache.normalize text = LRUCache.normalize sql →
      upperSelect sel' = upperSelect sel
  insert : ∀ stmt, parseSql sql = .ok (.ok (.insert stmt)) → StoresRow ex stmt →
    ∀ text sel, Cached seen ex text sel → Bytes.toUpper stmt.tableName ∈ reads sel →
      takenToRead stmt.tableName (LRUCache.normalize text) ∧ ¬ PartialInsert ex sql

end FlexQL.Spec
