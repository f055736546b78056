import FlexQL.Ref.Database
import FlexQL.Spec.Catalog

/-!
# Runs of a persistent database

What can happen to a database and its data directory: calls one after
another, a crash between two of them or in the middle of a snapshot, a
shutdown, and a restart from what is on the disk.

The rows of a table that is snapshotted must not have expired, and the counts
the files hold must not have wrapped: there are fewer than 2^32 tables, each
of which has taken 4 MiB of memory, fewer than 2^64 rows in a table, and
fewer than 2^64 statements were logged.
-/

namespace FlexQL.Spec

open Lib FlexQL.Ref

/-- The list of the entries of a map, in whatever order they are met. -/
structure Enumerates (tables : List (Bytes × Table)) (m : Finmap fun _ : Bytes => Table) :
    Prop where
  nodup : (tables.map (·.1)).Nodup
  mem : ∀ name t, (name, t) ∈ tables ↔ m.lookup name = some t

/-- The clock has not passed the expiry of a row. -/
def Unexpired (now : Int64) (t : Table) : Prop :=
  ∀ p ∈ t.rows, ∀ expiry, t.readExpiry p = .ok expiry → expiry ≤ 0 ∨ now ≤ expiry

/-- The limits of the machine. -/
structure Within (db : Database) : Prop where
  tables : db.executor.tables.keys.card < 2 ^ 32
  rows : ∀ name t, db.executor.tables.lookup name = some t → t.rows.length < 2 ^ 64
  lsn : ∀ w, db.walWriter = some w → w.nextLsn.toNat + 1 < 2 ^ 64

theorem within_iff (db : Database) : Within db ↔ db.executor.tables.keys.card < 2 ^ 32 ∧
    (∀ e ∈ db.executor.tables.entries, e.2.rows.length < 2 ^ 64) ∧
    ∀ w ∈ db.walWriter, w.nextLsn.toNat + 1 < 2 ^ 64 := by
  constructor
  · intro h
    refine ⟨h.tables, fun e he => ?_, h.lsn⟩
    exact h.rows e.1 e.2 (Finmap.lookup_eq_some_iff.mpr he)
  · intro h
    exact ⟨h.1, fun name t ht => h.2.1 ⟨name, t⟩ (Finmap.lookup_eq_some_iff.mp ht), h.2.2⟩

instance (db : Database) : Decidable (Within db) := decidable_of_iff _ (within_iff db).symm

/-- A snapshot can be taken: these are the tables, and none of their rows has
expired. -/
structure Snapshots (db : Database) (now : Int64) (tables : List (Bytes × Table)) : Prop where
  order : Enumerates tables db.executor.tables
  live : ∀ p ∈ tables, Unexpired now p.2

/-- The text is not too long for the log, and its rows fit. -/
structure Loggable (sql : Bytes) : Prop where
  short : sql.length ≤ WALRecord.maxPayload
  fits : FitsSql sql

instance (sql : Bytes) : Decidable (Loggable sql) :=
  decidable_of_iff (sql.length ≤ WALRecord.maxPayload ∧ FitsSql sql)
    ⟨fun h => ⟨h.1, h.2⟩, fun h => ⟨h.short, h.fits⟩⟩

variable [FloatLib]

/-- The replay of a log with its answers: the sequence numbers of the records
that are executed, and whether their statements succeed. -/
def replayAnswers (now : Int64) : Database → List WALRecord →
    Outcome (Database × List (UInt64 × Bool))
  | db, [] => .ok (db, [])
  | db, rec :: recs =>
      if rec.lsn ≤ db.snapshotLsn then replayAnswers now db recs
      else do
        let (ex, r) ← db.executor.executeSql now rec.sql
        let (db, answers) ← replayAnswers now { db with executor := ex } recs
        .ok (db, (rec.lsn, r.success) :: answers)

/-- A text given to an open database at a time. -/
def executeCall (s : Database × Disk) (call : Int64 × Bytes) :
    Outcome ((Database × Disk) × QueryResult) :=
  s.1.execute call.1 s.2 call.2

/-- A call on an open database that returns. -/
inductive Call : Database × Disk → Database × Disk → Prop where
  | execute {db : Database} {disk : Disk} {after : Database × Disk} {now : Int64} {sql : Bytes}
      {r : QueryResult} :
      Within db → Loggable sql → db.execute now disk sql = .ok (after, r) →
      Call (db, disk) after
  | snapshot {db : Database} {disk : Disk} {after : Database × Disk} {now : Int64}
      {fault : Option Snapshot.SaveFault} {tables : List (Bytes × Table)} {e : Option Bytes} :
      Within db → Snapshots db now tables →
      db.takeSnapshot now fault tables disk = .ok (after, e) → Call (db, disk) after

/-- The states of a database opened on an empty data directory. -/
inductive Lifetime (dataDir : Bytes) : Database × Disk → Prop where
  | opened {now : Int64} {s : Database × Disk} :
      dataDir ≠ [] → Database.new dataDir now Disk.empty = .ok s → Lifetime dataDir s
  | call {s s' : Database × Disk} : Lifetime dataDir s → Call s s' → Lifetime dataDir s'

/-- What a crash leaves on the disk: between two calls and before a snapshot
is renamed all there was, after the rename the new snapshot with the old
log. -/
inductive Crash : Database × Disk → Disk → Prop where
  | between (db : Database) (disk : Disk) : Crash (db, disk) disk
  | renamed {db : Database} {disk : Disk} {after : Database × Disk} {now : Int64}
      {tables : List (Bytes × Table)} :
      Within db → Snapshots db now tables →
      db.saveSnapshot now none tables db.coveredLsn disk = .ok (.ok after) →
      Crash (db, disk) after.2

/-- How a lifetime ends: with a crash between two calls, or with the snapshot
of the destructor. -/
inductive Ends : Database × Disk → Disk → Prop where
  | crash (db : Database) (disk : Disk) : Ends (db, disk) disk
  | shutdown {db : Database} {disk : Disk} {after : Database × Disk} {now : Int64}
      {fault : Option Snapshot.SaveFault} {tables : List (Bytes × Table)} {e : Option Bytes} :
      Within db → Snapshots db now tables →
      db.takeSnapshot now fault tables disk = .ok (after, e) → Ends (db, disk) after.2

/-- The sequence number the snapshot on the disk covers. -/
def coveredBy (disk : Disk) : UInt64 :=
  match disk.snapshot with
  | none => 0
  | some file =>
      match Snapshot.readHeader file with
      | .ok ((lsn, _), _) => lsn
      | .error _ => 0

/-- No record in the log has a sequence number the snapshot covers. -/
def Uncovered (disk : Disk) : Prop :=
  ∀ r ∈ WALReader.readAll (disk.wal.getD []), coveredBy disk < r.lsn

instance (disk : Disk) : Decidable (Uncovered disk) :=
  inferInstanceAs (Decidable (∀ r ∈ WALReader.readAll (disk.wal.getD []), coveredBy disk < r.lsn))

/-- The states of a database over any number of lifetimes, each of which
left an uncovered log behind. -/
inductive Lifetimes (dataDir : Bytes) : Database × Disk → Prop where
  | opened {now : Int64} {s : Database × Disk} :
      dataDir ≠ [] → Database.new dataDir now Disk.empty = .ok s → Lifetimes dataDir s
  | call {s s' : Database × Disk} : Lifetimes dataDir s → Call s s' → Lifetimes dataDir s'
  | restart {s s' : Database × Disk} {disk : Disk} {now : Int64} :
      Lifetimes dataDir s → Ends s disk → Uncovered disk →
      Database.new dataDir now disk = .ok s' → Lifetimes dataDir s'

end FlexQL.Spec
