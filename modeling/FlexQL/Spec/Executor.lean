import FlexQL.Ref.Executor

/-!
# Runs of the executor, and statements that stop half way

A tuple goes into a table when its literals are ones of the columns' types,
the strings are not too long, and a row has a size at all.
-/

namespace FlexQL.Spec

open Lib FlexQL.Ref

/-- A C library that reads no doubles, for runs on integers. -/
abbrev noDoubles : FloatLib := ⟨fun _ => none, fun _ => []⟩

variable [FloatLib]

/-- One statement after another, with a clock that stands still. -/
def runAll (now : Int64) : Executor → List Bytes → Outcome (Executor × List QueryResult)
  | ex, [] => .ok (ex, [])
  | ex, sql :: sqls => do
      let (ex, r) ← ex.executeSql now sql
      let (ex, rs) ← runAll now ex sqls
      .ok (ex, r :: rs)

/-- The table takes the tuple. -/
def Admits (t : Table) (rowVals : List Bytes) : Prop :=
  ∃ row, Executor.parseTuple t.schema rowVals = .ok row ∧
    t.schema.validateRow row = none ∧ t.cachedRowSize ≠ 0

/-- The text is an `INSERT` into a table that takes its first tuple, but not
all of them. -/
def PartialInsert (ex : Executor) (sql : Bytes) : Prop :=
  ∃ stmt table first rest, parseSql sql = .ok (.ok (.insert stmt)) ∧
    ex.tables.lookup (Bytes.toUpper stmt.tableName) = some table ∧
    stmt.batchValues = first :: rest ∧ Admits table first ∧
    ∃ rowVals ∈ rest, ¬ Admits table rowVals

end FlexQL.Spec
