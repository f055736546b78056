import FlexQL.Lib.Actions
import FlexQL.Spec.Executor
import FlexQL.Spec.Table

/-!
# The database as its users see it

A catalog is a finite map from names to relations, and a relation is a schema
with a list of rows. `CREATE TABLE` and `INSERT` act on a catalog without a
clock, a cache or a memory; the index of a relation is a function of its
rows, and an insertion goes through when the index over the longer list can
be built. Two sets of tables that stand for the same catalog are `SameTables`:
they answer every question about rows and keys alike.
-/

namespace FlexQL.Spec

open Lib FlexQL.Ref

/-- A relation. -/
structure Rel where
  schema : Schema
  rows : List Row

/-- The relations of a database under their names. -/
abbrev Catalog := Finmap fun _ : Bytes => Rel

/-- One more row. -/
def Rel.push (r : Rel) (row : Row) : Outcome Rel := do
  let _ ← buildIndex r.schema (r.rows ++ [row])
  .ok ⟨r.schema, r.rows ++ [row]⟩

section Statements

variable [FloatLib]

/-- Tuple after tuple, up to the first bad one; says whether there was none. -/
def Rel.insertTuples : List (List Bytes) → Rel → Outcome (Rel × Bool)
  | [], r => .ok (r, true)
  | rowVals :: rest, r =>
      match Executor.parseTuple r.schema rowVals with
      | .error _ => .ok (r, false)
      | .ok row =>
          match r.schema.validateRow row with
          | some _ => .ok (r, false)
          | none => do
              let r ← r.push row
              Rel.insertTuples rest r

namespace Catalog

/-- `CREATE TABLE`; says whether it succeeded. -/
def create (c : Catalog) (stmt : CreateTableStmt) : Outcome (Catalog × Bool) :=
  let name := Bytes.toUpper stmt.tableName
  if (c.lookup name).isSome then .ok (c, false)
  else match Executor.buildSchema Schema.empty stmt.columns with
    | .error _ => .ok (c, false)
    | .ok schema => do
        let _ ← schema.pkColumn
        .ok (c.insert name ⟨schema, []⟩, true)

/-- `INSERT`; says whether it succeeded. -/
def insert (c : Catalog) (stmt : InsertStmt) : Outcome (Catalog × Bool) :=
  let name := Bytes.toUpper stmt.tableName
  match c.lookup name with
  | none => .ok (c, false)
  | some r => do
      let (r, ok) ← r.insertTuples stmt.batchValues
      .ok (Finmap.insert name r c, ok)

/-- What a text does; says whether it is a `CREATE TABLE` or `INSERT` that
succeeded. -/
def apply (c : Catalog) (sql : Bytes) : Outcome (Catalog × Bool) := do
  match ← parseSql sql with
  | .ok (.createTable stmt) => c.create stmt
  | .ok (.insert stmt) => c.insert stmt
  | _ => .ok (c, false)

/-- One text after another, with what each says. -/
def applyAll (c : Catalog) (sqls : List Bytes) : Outcome (Catalog × List Bool) :=
  Actions.runAll apply c sqls

end Catalog

end Statements

/-- The text is a `SELECT`. -/
def IsSelect (sql : Bytes) : Prop := ∃ stmt, parseSql sql = .ok (.ok (.select stmt))

/-- A table created by the text has rows of fewer than 2^32 bytes. -/
def FitsSql (sql : Bytes) : Prop :=
  ∀ stmt schema, parseSql sql = .ok (.ok (.createTable stmt)) →
    Executor.buildSchema Schema.empty stmt.columns = .ok schema →
    extent schema.columns + 9 < 2 ^ 32

/-- `FitsSql` as a computation. -/
def fitsSql (sql : Bytes) : Bool :=
  match parseSql sql with
  | .ok (.ok (.createTable stmt)) =>
      match Executor.buildSchema Schema.empty stmt.columns with
      | .ok schema => extent schema.columns + 9 < 2 ^ 32
      | .error _ => true
  | _ => true

theorem fitsSql_iff (sql : Bytes) : fitsSql sql = true ↔ FitsSql sql := by
  rw [fitsSql, FitsSql]
  split
  · next stmt hparse =>
      split
      · next schema hschema =>
          rw [decide_eq_true_iff]
          constructor
          · intro h stmt' schema' hparse' hschema'
            cases hparse.symm.trans hparse'
            cases hschema.symm.trans hschema'
            exact h
          · exact fun h => h stmt schema hparse hschema
      · next e hschema =>
          refine iff_of_true rfl fun stmt' schema' hparse' hschema' => ?_
          cases hparse.symm.trans hparse'
          cases hschema.symm.trans hschema'
  · next hother =>
      exact iff_of_true rfl fun stmt' _ hparse' _ => absurd hparse' (hother stmt')

instance (sql : Bytes) : Decidable (FitsSql sql) := decidable_of_iff _ (fitsSql_iff sql)

/-- The tables have the same name, schema, rows in order and index. -/
structure SameTable (t t' : Table) : Prop where
  name : t'.name = t.name
  schema : t'.schema = t.schema
  rows : ∃ rows, t.rows.mapM t.readRow = .ok rows ∧ t'.rows.mapM t'.readRow = .ok rows
  index : t'.pkIndex = t.pkIndex
  count : t'.rowCount = t.rowCount

/-- The same tables under the same names. -/
def SameTables (m m' : Finmap fun _ : Bytes => Table) : Prop :=
  ∀ name, Option.Rel SameTable (m.lookup name) (m'.lookup name)

end FlexQL.Spec
