import FlexQL.Spec.Executor
import FlexQL.Spec.Table

/-!
# The states of an executor, and what its statements are for

`Reachable` are the executors that statements lead to, run by any clocks and
under any texts, with tables handed in as recovery hands them in. `TakesTuple`
and `keeps` say in terms of rows alone what an `INSERT` stores and what a
`SELECT` on one table returns.
-/

namespace FlexQL.Spec

open Lib FlexQL.Ref

section Reach

variable [FloatLib]

inductive Reachable : Executor → Prop where
  | new : Reachable Executor.new
  | execute {ex ex' : Executor} {now : Int64} {stmt : Statement} {rawSql : Bytes}
      {r : QueryResult} : Reachable ex → ex.execute now stmt rawSql = .ok (ex', r) → Reachable ex'
  | restore {ex : Executor} {name : Bytes} {cols : List ColumnDef} {ttlSeconds : UInt32}
      {t₀ t : Table} {ops : List (Int64 × Row)} : Reachable ex →
      Table.new name (Schema.empty.addColumns cols) ttlSeconds = .ok t₀ → Inserted t₀ ops t →
      Reachable (ex.restoreTable name t)

/-- The literal is one of the column's type, and not too long for it. -/
structure Takes (c : ColumnDef) (literal : Bytes) (v : Value) : Prop where
  parsed : Executor.parseLiteral literal c.type = .ok v
  short : c.type = .varchar → v.strVal.length ≤ c.maxLen.toNat

/-- A tuple of an `INSERT`, and the row it stands for. -/
def TakesTuple (s : Schema) (tuple : List Bytes) (row : Row) : Prop :=
  tuple.length = s.columns.length ∧
    List.Forall₂ (fun (p : Bytes × ColumnDef) v => Takes p.2 p.1 v) (tuple.zip s.columns) row

end Reach

/-! ## Queries -/

/-- The row is put together from cells of the sources. -/
def MadeOf (sources : List Row) (picks : List (Nat × Nat)) (out : Row) : Prop :=
  List.Forall₂ (fun p v => ∃ row, sources[p.1]? = some row ∧ row[p.2]? = some v) picks out

/-- Every row of an answer is put together, in one way, from a row of each of
the lists. -/
def Grounded (visible : List (List Row)) (rows : List Row) : Prop :=
  ∃ picks, ∀ out ∈ rows, ∃ sources, List.Forall₂ (· ∈ ·) sources visible ∧
    MadeOf sources picks out

/-! ## Queries on one table -/

/-- The value of a row in the column of that name. -/
def field (s : Schema) (row : Row) (name : Bytes) : Option Value :=
  (s.columns.findIdx? (·.name = name)).bind fun i => row[i]?

/-- The names a query selects. -/
def selectedNames (s : Schema) (stmt : SelectStmt) : List Bytes :=
  if Executor.selectsAll stmt then s.columns.map (·.name)
  else stmt.columns.map fun cr => Bytes.toUpper cr.column

variable [FloatLib]

/-- The value a `WHERE` compares with, if the column is there and takes the
literal. -/
def bound (s : Schema) (w : WhereClause) : Option Value :=
  (s.columns.find? (·.name = Bytes.toUpper w.column.column)).bind fun c =>
    (Executor.parseLiteral w.literal c.type).toOption

/-- The row satisfies the `WHERE`. -/
def keeps (s : Schema) (whereClause : Option WhereClause) (row : Row) : Bool :=
  match whereClause with
  | none => true
  | some w =>
      match field s row (Bytes.toUpper w.column.column), bound s w with
      | some actual, some v => (Executor.convertOp w.op).holds actual v
      | _, _ => false

end FlexQL.Spec
