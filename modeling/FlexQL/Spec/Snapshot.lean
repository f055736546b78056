import FlexQL.Ref.Snapshot
import FlexQL.Spec.Database

/-!
# What a snapshot keeps

A snapshot holds the rows a scan shows, and a load inserts them anew. Rows
that have expired or were swept are gone afterwards, and with them what they
did to the index: the index of a table leads to the last row inserted under a
key, whether that row can still be seen or not.
-/

namespace FlexQL.Spec

open Lib FlexQL.Ref

/-- The byte that is written for the type stands for it. -/
def Coded (type : DataType) : Prop := DataType.ofCode type.code = type

/-- The tables that the calls of a table lead to. -/
inductive Grown : Table → Prop where
  | new {name : Bytes} {cols : List ColumnDef} {ttlSeconds : UInt32} {t : Table} :
      Table.new name (Schema.empty.addColumns cols) ttlSeconds = .ok t → Grown t
  | insert {t t' : Table} {now : Int64} {row : Row} {e : Option Bytes} :
      Grown t → t.insert now row = .ok (t', e) → Grown t'
  | sweep {t t' : Table} {now : Int64} {n : Nat} :
      Grown t → t.cleanupExpired now = .ok (t', n) → Grown t'

/-- The rows in the order of insertion, each with whether a query at `now`
sees it. -/
def sightings (now : Int64) (t : Table) : Outcome (List (Row × Bool)) :=
  t.rows.mapM fun p => do
    let row ← t.readRow p
    let visible ← t.isRowValid now p
    .ok (row, visible)

/-- Every row can be seen. -/
def Whole (now : Int64) (t : Table) : Prop :=
  ∃ l, sightings now t = .ok l ∧ ∀ x ∈ l, x.2 = true

/-- The keys compare. -/
def Ordered (now : Int64) (t : Table) : Prop :=
  ∃ l, sightings now t = .ok l ∧ ∀ x ∈ l, Comparable (pkType t.schema) (key x.1)

/-- No row that can be seen is followed by one with the same first value that
cannot. -/
def Uncovers (now : Int64) (t : Table) : Prop :=
  ∃ l, sightings now t = .ok l ∧
    l.Pairwise fun x y => x.2 = true → y.2 = false → (key y.1).eq (key x.1) = false

/-- What the snapshot format can hold under a name. -/
structure Storing (name : Bytes) (t : Table) : Prop where
  grown : Grown t
  name : name.length ≤ Snapshot.maxStr
  columns : ∀ c ∈ t.schema.columns, c.name.length ≤ Snapshot.maxStr ∧ ∀ b, c.type ≠ .unknown b
  size : extent t.schema.columns + 9 < 2 ^ 32
  rows : t.rows.length < 2 ^ 64

/-- What the format can hold of a table, whatever its rows look like in
memory. -/
structure Savable (name : Bytes) (t : Table) : Prop where
  name : name.length ≤ Snapshot.maxStr
  count : t.schema.columns.length < 2 ^ 32
  columns : ∀ c ∈ t.schema.columns, c.name.length ≤ Snapshot.maxStr ∧ Coded c.type
  rows : t.rows.length < 2 ^ 64

/-- The file does not load, and a database that recovers takes nothing from
it. -/
def Rejected (file : Bytes) : Prop :=
  ∀ now, (∃ e, Snapshot.load now file = .ok (.error e)) ∧
    ∀ db : Database, db.loadSnapshot now (some file) = .ok db

/-- The tables answer alike at time `now`. -/
structure SameAnswers (now : Int64) (t t' : Table) : Prop where
  columns : t'.schema.columns = t.schema.columns
  scan : ∃ rows, t.scanAll now = .ok rows ∧ t'.scanAll now = .ok rows
  range : ∀ op v, Whole now t ∨ Comparable (pkType t.schema) v →
    t'.indexRange now op v [] = t.indexRange now op v []
  returns : Ordered now t → ∀ op v, Comparable (pkType t.schema) v →
    ∃ rows, t.indexRange now op v [] = .ok rows

end FlexQL.Spec
