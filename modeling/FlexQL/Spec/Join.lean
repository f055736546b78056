import FlexQL.Spec.Reach
import Mathlib.Data.List.ProdSigma

/-!
# Joins as relations

The answer of a join is the list of all pairs of visible rows, left rows
first, filtered by the `ON` and by the `WHERE`, with the output columns
gathered from each pair. A `WHERE` is understood when its column is one of the
two tables and its literal is one of the column's type; the column is looked
for in the left table first.
-/

namespace FlexQL.Spec

open Lib FlexQL.Ref FlexQL.Ref.Executor
open FlexQL.Ref.Executor.JoinTables (pick)

/-- The two columns of a pair of rows compare. -/
def onHolds (op : CmpOp) (leftIdx rightIdx : Nat) (p : Row × Row) : Bool :=
  op.holds (p.1.getD leftIdx default) (p.2.getD rightIdx default)

/-- The output row of a pair. -/
def gather (sources : List (Side × Nat)) (p : Row × Row) : Row :=
  sources.map fun src => (pick src.1 p.1 p.2).getD src.2 default

/-- The names and sources of the output columns, or the error. -/
def outputs (j : JoinTables) (stmt : SelectStmt) : Except Bytes (List (Bytes × Side × Nat)) :=
  if selectsAll stmt then .ok j.allColumns else j.selectedColumns stmt.columns

/-- Two tables under the names a statement joins them by. -/
def joinOf (stmt : SelectStmt) (join : JoinClause) (left right : Table) : JoinTables :=
  ⟨Bytes.toUpper stmt.tableName, left.schema, Bytes.toUpper join.rightTable, right.schema⟩

/-- The rows of the table can be read. -/
def Readable (now : Int64) (t : Table) : Prop := ∃ rows, t.scanAll now = .ok rows

/-- The statement is refused before it reads a row: a table or a column of the
`ON` is not there. -/
def JoinRefused (tables : Finmap fun _ : Bytes => Table) (stmt : SelectStmt)
    (join : JoinClause) : Prop :=
  ∀ left right, tables.lookup (Bytes.toUpper stmt.tableName) = some left →
    tables.lookup (Bytes.toUpper join.rightTable) = some right →
    left.schema.findColumn (Bytes.toUpper join.leftCol.column) = none ∨
      right.schema.findColumn (Bytes.toUpper join.rightCol.column) = none

variable [FloatLib]

/-- The column a `WHERE` means and the value it is compared with, if it is
understood. -/
def joinBound (j : JoinTables) (w : WhereClause) : Option (Side × Nat × Value) := do
  let (side, idx) ← j.find (Bytes.toUpper w.column.table) (Bytes.toUpper w.column.column)
  let col ← (pick side j.left j.right).columns[idx]?
  let v ← (parseLiteral w.literal col.type).toOption
  return (side, idx, v)

/-- The `WHERE` lets the pair through. One that is not understood lets every
pair through. -/
def whereHolds (j : JoinTables) (whereClause : Option WhereClause) (p : Row × Row) : Bool :=
  match whereClause with
  | none => true
  | some w =>
      match joinBound j w with
      | none => true
      | some (side, idx, v) =>
          (convertOp w.op).holds ((pick side p.1 p.2).getD idx default) v

/-- The pair satisfies the `WHERE`, which has to be understood for this. -/
def satisfies (j : JoinTables) (whereClause : Option WhereClause) (p : Row × Row) : Bool :=
  (whereClause.all fun w => (joinBound j w).isSome) && whereHolds j whereClause p

/-- The pairs of a join, in order. -/
def joinPairs (j : JoinTables) (whereClause : Option WhereClause) (op : CmpOp)
    (leftIdx rightIdx : Nat) (left right : List Row) : List (Row × Row) :=
  ((left ×ˢ right).filter (onHolds op leftIdx rightIdx)).filter (whereHolds j whereClause)

/-- The `WHERE` is understood, and every row is gathered from a pair of visible
rows that satisfies it. -/
def WhereKept (tables : Finmap fun _ : Bytes => Table) (now : Int64) (stmt : SelectStmt)
    (join : JoinClause) (w : WhereClause) (rows : List Row) : Prop :=
  ∃ left right leftRows rightRows cols side idx v,
    tables.lookup (Bytes.toUpper stmt.tableName) = some left ∧
    tables.lookup (Bytes.toUpper join.rightTable) = some right ∧
    left.scanAll now = .ok leftRows ∧ right.scanAll now = .ok rightRows ∧
    outputs (joinOf stmt join left right) stmt = .ok cols ∧
    joinBound (joinOf stmt join left right) w = some (side, idx, v) ∧
    ∀ out ∈ rows, ∃ l ∈ leftRows, ∃ r ∈ rightRows, out = gather (cols.map (·.2)) (l, r) ∧
      ∃ actual, (pick side l r)[idx]? = some actual ∧ (convertOp w.op).holds actual v = true

/-- The statement's `WHERE` is not lost: it is refused for another reason, or
its rows can be read and the `WHERE` is understood. -/
def WhereUnderstood (tables : Finmap fun _ : Bytes => Table) (now : Int64) (stmt : SelectStmt)
    (join : JoinClause) (w : WhereClause) : Prop :=
  JoinRefused tables stmt join ∨
    ∃ left right, tables.lookup (Bytes.toUpper stmt.tableName) = some left ∧
      tables.lookup (Bytes.toUpper join.rightTable) = some right ∧
      Readable now left ∧ Readable now right ∧
      ((∃ e, outputs (joinOf stmt join left right) stmt = .error e) ∨
        joinBound (joinOf stmt join left right) w ≠ none)

/-- The join with the two sides of its `ON` exchanged. -/
def swapOn (join : JoinClause) : JoinClause :=
  ⟨join.rightTable, join.rightCol, join.leftCol, join.op⟩

/-- Both tables can be read, and the select list is refused, or each table has
the other's `ON` column too and the rows that agree on these show the same
output as the rows that agree on its own. -/
def OnSwappable (now : Int64) (stmt : SelectStmt) (join : JoinClause) (left right : Table)
    (leftIdx rightIdx : Nat) : Prop :=
  ∃ leftRows rightRows, left.scanAll now = .ok leftRows ∧ right.scanAll now = .ok rightRows ∧
    ∀ cols, outputs (joinOf stmt join left right) stmt = .ok cols →
      ∃ leftIdx' rightIdx',
        left.schema.findColumn (Bytes.toUpper join.rightCol.column) = some leftIdx' ∧
        right.schema.findColumn (Bytes.toUpper join.leftCol.column) = some rightIdx' ∧
        (joinPairs (joinOf stmt join left right) stmt.whereClause .eq leftIdx rightIdx leftRows
            rightRows).map (gather (cols.map (·.2))) =
          (joinPairs (joinOf stmt join left right) stmt.whereClause .eq leftIdx' rightIdx'
            leftRows rightRows).map (gather (cols.map (·.2)))

/-! ## Joins of answers -/

/-- `SELECT * FROM name` -/
def starOf (name : Bytes) : SelectStmt := ⟨name, [], true, none, none⟩

/-- `SELECT * FROM name INNER JOIN …`, with an optional `WHERE`. -/
def starJoin (name : Bytes) (join : JoinClause) (whereClause : Option WhereClause) : SelectStmt :=
  ⟨name, [], true, whereClause, some join⟩

/-- A column under the name of its table. -/
def qualified (table column : Bytes) : Bytes := table ++ Bytes.lit "." ++ column

/-- The answer that is put together from two answers: the rows side by side,
for all pairs that pass. -/
def joinAnswers (leftName rightName : Bytes) (passes : Row × Row → Bool)
    (left right : CachedResult) : CachedResult :=
  ⟨left.columnNames.map (qualified leftName) ++ right.columnNames.map (qualified rightName),
    ((left.rows ×ˢ right.rows).filter passes).map fun p => p.1 ++ p.2⟩

end FlexQL.Spec
