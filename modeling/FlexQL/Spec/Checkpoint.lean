import FlexQL.Lib.MapRel
import FlexQL.Spec.Snapshot

/-!
# What a checkpoint must do

A checkpoint replaces the files of the data directory. It has done its work if
the new snapshot decodes to the tables, and it has done no harm if it says
that it failed and the files are the old ones. A crash afterwards then loses
nothing. How many bytes a snapshot takes can be told beforehand.

A lifespan is the life of one database on a data directory, whatever is in
there: it is opened, given statements and asked for snapshots, the last one by
its destructor.
-/

namespace FlexQL.Spec

open Lib FlexQL.Ref

/-! ## The size of a snapshot -/

/-- The rows that a scan shows. -/
def shown (now : Int64) (t : Table) : List Row := (t.scanAll now).toOption.getD []

/-- The bytes a value takes in a snapshot: its type and what is behind it. -/
def valueSize (v : Value) : Nat :=
  match v.type with
  | .int => 5
  | .decimal => 9
  | .varchar => 5 + v.strVal.length
  | .datetime => 9
  | .unknown _ => 1

/-- The bytes a table takes in a snapshot. -/
def tableSize (name : Bytes) (cols : List ColumnDef) (rows : List Row) : Nat :=
  4 + name.length + 4 + (cols.map fun c => c.name.length + 7).sum +
    8 + (rows.map fun row => 4 + (row.map valueSize).sum).sum

/-- The bytes a snapshot takes. -/
def snapshotSize (now : Int64) (tables : List (Bytes × Table)) : Nat :=
  28 + (tables.map fun q => tableSize q.1 q.2.schema.columns (shown now q.2)).sum

/-! ## The outcome of a checkpoint -/

/-- The second map has the tables of the first: under the same names, with the
same columns, and showing at `now'` the rows the others show at `now`. -/
def SameContents (now now' : Int64) (m m' : Finmap fun _ : Bytes => Table) : Prop :=
  MapRel (fun _ t t' => t'.schema = t.schema ∧
    ∃ rows, t.scanAll now = .ok rows ∧ t'.scanAll now' = .ok rows) m m'

/-- The file decodes to the tables, whenever it is loaded. -/
def Decodes (now : Int64) (m : Finmap fun _ : Bytes => Table) (file : Bytes) : Prop :=
  ∀ now', ∃ r, Snapshot.load now' file = .ok (.ok r) ∧ SameContents now now' m r.tables

variable [FloatLib]

/-- What `take_snapshot` at `now` on the files `before` has made of them, with
the answer `e`: it succeeds with a snapshot of the tables, or fails and leaves
the files alone; and what is there afterwards recovers to the tables. -/
structure Checkpointed (db : Database) (now : Int64) (before after : Disk) (e : Option Bytes) :
    Prop where
  answer : (e = none ∧ ∃ file, after.snapshot = some file ∧
      Decodes now db.executor.tables file) ∨
    (e.isSome ∧ after.snapshot = before.snapshot ∧ after.wal = before.wal)
  recovers : ∀ now', ∃ db', (Database.fresh db.dataDir).recover now' after = .ok db' ∧
    SameContents now now' db.executor.tables db'.executor.tables

/-! ## Lifespans -/

/-- A snapshot that was asked for: the call the file system refused, if any,
and the tables. -/
structure Save where
  fault : Option Snapshot.SaveFault
  tables : List (Bytes × Table)

/-- The states of a database that was opened on the files `start`, after the
snapshots in the list; the destructor is one more of these. -/
inductive Lifespan (dataDir : Bytes) (start : Disk) : List Save → Database × Disk → Prop where
  | opened {now : Int64} {s : Database × Disk} :
      Database.new dataDir now start = .ok s → Lifespan dataDir start [] s
  | execute {saves : List Save} {db : Database} {disk : Disk} {after : Database × Disk}
      {now : Int64} {sql : Bytes} {r : QueryResult} :
      Lifespan dataDir start saves (db, disk) → db.execute now disk sql = .ok (after, r) →
      Lifespan dataDir start saves after
  | snapshot {saves : List Save} {db : Database} {disk : Disk} {after : Database × Disk}
      {now : Int64} {save : Save} {e : Option Bytes} :
      Lifespan dataDir start saves (db, disk) → Enumerates save.tables db.executor.tables →
      db.takeSnapshot now save.fault save.tables disk = .ok (after, e) →
      Lifespan dataDir start (saves ++ [save]) after

end FlexQL.Spec
