import FlexQL.Spec.Database

/-!
# When rows were first inserted

Neither the tables nor the files record when a row was first inserted: a table
keeps when it expires, a snapshot only its values, and the log only the text of
its statement. `Annals` is a database with its files and with these times on the
side. A row that a restart brings back keeps the time it had, wherever it was
in between: the `i`-th row of a table in the snapshot is the `i`-th one a scan
showed, and a statement in the log is the one that was executed then.
-/

namespace FlexQL.Spec

open Lib FlexQL.Ref

/-- A database with its files and the times at which the rows were first
inserted. -/
structure Annals where
  db : Database
  disk : Disk
  /-- of the last event -/
  clock : Int64
  /-- of the rows in the tables, by name and in the order of the rows -/
  firsts : Bytes → List Int64
  /-- of the rows in the snapshot -/
  saved : Bytes → List Int64
  /-- of the statements in the log, the last one first -/
  logged : List (WALRecord × Int64)

/-! ## Times of rows -/

/-- How many rows the table of a name has. -/
def rowsIn (tables : Finmap fun _ : Bytes => Table) (name : Bytes) : Nat :=
  match tables.lookup name with
  | some t => t.rows.length
  | none => 0

/-- The rows that a statement first executed at `time` added to the tables. -/
def stamp (before after : Finmap fun _ : Bytes => Table) (time : Int64)
    (firsts : Bytes → List Int64) (name : Bytes) : List Int64 :=
  (firsts name).take (rowsIn before name) ++
    List.replicate (rowsIn after name - rowsIn before name) time

/-- The times of the rows that a scan shows. -/
def survivors (now : Int64) (t : Table) (firsts : List Int64) : List Int64 :=
  ((t.rows.zip firsts).filter fun x => t.isRowValid now x.1 = .ok true).map (·.2)

/-- The rows that are not older than the lifetime of their table. -/
def youngRows (later : Int64) (t : Table) (firsts : List Int64) : Outcome (List Row) :=
  ((t.rows.zip firsts).filter fun x => WithinTtl t.ttlSeconds x.2 later).mapM fun x =>
    t.readRow x.1

/-- When a statement in the log was first executed; one that was not logged is
executed for the first time. -/
def firstRun (logged : List (WALRecord × Int64)) (now : Int64) (rec : WALRecord) : Int64 :=
  match logged.find? (·.1 = rec) with
  | some e => e.2
  | none => now

/-- What `execute` appends to the log. -/
def newRecords (db : Database) (sql : Bytes) : List WALRecord :=
  match db.walWriter with
  | some w => if db.persistent && isMutatingSql sql then [⟨w.nextLsn, sql⟩] else []
  | none => []

/-! ## Events -/

namespace Annals

/-- The times a snapshot at `now` saves. -/
def kept (a : Annals) (now : Int64) (name : Bytes) : List Int64 :=
  match a.db.executor.tables.lookup name with
  | some t => survivors now t (a.firsts name)
  | none => []

/-- `take_snapshot`, on request or in the destructor. -/
def snapshot (a : Annals) (now : Int64) (fault : Option Snapshot.SaveFault)
    (tables : List (Bytes × Table)) : Outcome Annals := do
  let ((db, disk), e) ← a.db.takeSnapshot now fault tables a.disk
  match e with
  | some _ => .ok { a with db, disk, clock := now }
  | none => .ok { a with db, disk, clock := now, saved := a.kept now, logged := [] }

variable [FloatLib]

/-- `execute` -/
def execute (a : Annals) (now : Int64) (sql : Bytes) : Outcome Annals := do
  let ((db, disk), _) ← a.db.execute now a.disk sql
  .ok { a with
    db, disk
    clock := now
    firsts := stamp a.db.executor.tables db.executor.tables now a.firsts
    logged := (newRecords a.db sql).map (·, now) ++ a.logged }

/-- The times of the rows after a replay. -/
def replay (now : Int64) (logged : List (WALRecord × Int64)) :
    Database → (Bytes → List Int64) → List WALRecord → Outcome (Bytes → List Int64)
  | _, firsts, [] => .ok firsts
  | db, firsts, rec :: recs =>
      if rec.lsn ≤ db.snapshotLsn then replay now logged db firsts recs
      else do
        let (ex, _) ← db.executor.executeSql now rec.sql
        replay now logged { db with executor := ex }
          (stamp db.executor.tables ex.tables (firstRun logged now rec) firsts) recs

/-- The times of the rows that a restart at `now` brings back. -/
def comesBack (a : Annals) (now : Int64) : Outcome (Bytes → List Int64) := do
  let db ← (Database.fresh a.db.dataDir).loadSnapshot now a.disk.snapshot
  replay now a.logged db (fun name => (a.saved name).take (rowsIn db.executor.tables name))
    (WALReader.readAll (a.disk.wal.getD []))

/-- The constructor on the files that are there. -/
def restart (a : Annals) (now : Int64) : Outcome Annals := do
  let (db, disk) ← Database.new a.db.dataDir now a.disk
  let firsts ← a.comesBack now
  .ok { a with db, disk, clock := now, firsts }

/-! ## Runs -/

/-- A row inserted at `now` expires, and the clock can get there. -/
def Ticks (now : Int64) : Prop :=
  0 < now.toInt + defaultTtlSeconds.toNat ∧ now.toInt + defaultTtlSeconds.toNat < 2 ^ 63

/-- How a process ends: with a crash, which may cost the log its last bytes, or
with one in the middle of a snapshot, after the rename. A shutdown is a snapshot
with a crash right behind. -/
inductive Dies : Annals → Annals → Prop where
  | crash (a : Annals) (cut : Nat) :
      Dies a { a with disk := { a.disk with wal := a.disk.wal.map (·.take cut) } }
  | renamed {a : Annals} {after : Database × Disk} {now : Int64}
      {tables : List (Bytes × Table)} :
      a.clock ≤ now → Within a.db → Enumerates tables a.db.executor.tables →
      a.db.saveSnapshot now none tables a.db.coveredLsn a.disk = .ok (.ok after) →
      Dies a { a with db := after.1, disk := after.2, clock := now, saved := a.kept now }

/-- What a run leads to from an empty data directory, with any number of
lifetimes. `Back` is what a restart has to meet. -/
inductive Reached (dataDir : Bytes) (Back : Annals → Int64 → Prop) : Annals → Prop where
  | opened {now : Int64} {s : Database × Disk} :
      dataDir ≠ [] → Database.new dataDir now Disk.empty = .ok s →
      Reached dataDir Back ⟨s.1, s.2, now, fun _ => [], fun _ => [], []⟩
  | execute {a a' : Annals} {now : Int64} {sql : Bytes} :
      Reached dataDir Back a → a.clock ≤ now → Ticks now → Loggable sql →
      a.execute now sql = .ok a' → Reached dataDir Back a'
  | snapshot {a a' : Annals} {now : Int64} {fault : Option Snapshot.SaveFault}
      {tables : List (Bytes × Table)} :
      Reached dataDir Back a → a.clock ≤ now → Within a.db →
      Enumerates tables a.db.executor.tables → a.snapshot now fault tables = .ok a' →
      Reached dataDir Back a'
  | restart {a b a' : Annals} {now : Int64} :
      Reached dataDir Back a → Dies a b → b.clock ≤ now → Ticks now →
      (∀ rec ∈ WALReader.readAll (b.disk.wal.getD []), Loggable rec.sql) → Back b now →
      b.restart now = .ok a' → Reached dataDir Back a'

/-- No row that a restart at `now` brings back was first inserted before. -/
def Young (a : Annals) (now : Int64) : Prop :=
  ∀ firsts, a.comesBack now = .ok firsts → ∀ name, ∀ time ∈ firsts name, now ≤ time

/-- From now on no row is seen that is older than the lifetime of its table. -/
def Mortal (a : Annals) : Prop :=
  ∀ name t, a.db.executor.tables.lookup name = some t → ∀ later, a.clock ≤ later →
    ∃ young, youngRows later t (a.firsts name) = .ok young ∧
      (∃ rows, t.scanAll later = .ok rows ∧ rows.Sublist young) ∧
      ∀ op v, ∃ rows, t.indexRange later op v [] = .ok rows ∧ ∀ row ∈ rows, row ∈ young

end Annals

end FlexQL.Spec
