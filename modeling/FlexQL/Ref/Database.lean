import FlexQL.Ref.Executor
import FlexQL.Ref.Snapshot
import FlexQL.Ref.Wal

/-!
# The database (`database.h`, `database.cpp`)

The executor with its log and its snapshots. The two files of the data
directory are a value of their own, which outlives the object. The sweeper of
expired rows is a module of its own; no call here has to do with it. `now` is
what `std::time` returns during the call.
-/

namespace FlexQL.Ref

open Lib

/-- The files of the data directory, where they exist. -/
structure Disk where
  /-- `snapshot.dat` -/
  snapshot : Option Bytes
  /-- `wal.log` -/
  wal : Option Bytes
  deriving DecidableEq, Repr

/-- An empty data directory. -/
def Disk.empty : Disk := ⟨none, none⟩

/-- `is_mutating_sql` -/
def isMutatingSql (sql : Bytes) : Bool :=
  let rest := sql.dropWhile Bytes.isSpace
  if rest.isEmpty then false
  else
    let word := Bytes.toUpper (rest.takeWhile Bytes.isAlpha)
    word = Bytes.lit "CREATE" || word = Bytes.lit "INSERT"

/-- `Database` -/
structure Database where
  dataDir : Bytes
  executor : Executor
  walWriter : Option WALWriter
  snapshotLsn : UInt64
  recoveredWalRecords : Nat

namespace Database

variable [FloatLib]

/-- `persistent` -/
def persistent (db : Database) : Bool := !db.dataDir.isEmpty

/-! ## Recovery -/

/-- The first step of `recover`. A file that does not load is passed over;
the tables of one that does are moved in, in whatever order. -/
def loadSnapshot (db : Database) (now : Int64) (snapshot : Option Bytes) : Outcome Database :=
  match snapshot with
  | none => .ok db
  | some file => do
      match ← Snapshot.load now file with
      | .error _ => .ok db
      | .ok r => .ok { db with
          executor := { db.executor with tables := r.tables ∪ db.executor.tables }
          snapshotLsn := r.lastWalLsn }

/-- The callback of the replay. -/
def replayRecord (now : Int64) (db : Database) (rec : WALRecord) : Outcome (Database × Bool) :=
  if rec.lsn ≤ db.snapshotLsn then .ok (db, true)
  else do
    let (ex, _) ← db.executor.executeSql now rec.sql
    .ok ({ db with executor := ex }, true)

/-- The second step of `recover`. -/
def replayWal (db : Database) (now : Int64) (wal : Option Bytes) : Outcome Database :=
  match wal with
  | none => .ok db
  | some file => do
      let (db, count) ← WALReader.replay (replayRecord now) db file
      .ok { db with recoveredWalRecords := count }

/-- `recover` -/
def recover (db : Database) (now : Int64) (disk : Disk) : Outcome Database := do
  let db ← db.loadSnapshot now disk.snapshot
  db.replayWal now disk.wal

/-! ## The object -/

/-- The members before the body of the constructor runs. -/
def fresh (dataDir : Bytes) : Database := ⟨dataDir, Executor.new, none, 0, 0⟩

/-- The constructor. -/
def new (dataDir : Bytes) (now : Int64) (disk : Disk) : Outcome (Database × Disk) :=
  if (fresh dataDir).persistent then do
    let db ← (fresh dataDir).recover now disk
    let (w, file) := WALWriter.new disk.wal
    .ok ({ db with walWriter := some w }, { disk with wal := some file })
  else .ok (fresh dataDir, disk)

/-- The first half of `execute`: the text goes to the log. -/
def log (db : Database) (disk : Disk) (sql : Bytes) : Database × Disk :=
  match db.walWriter with
  | none => (db, disk)
  | some w =>
      if db.persistent && isMutatingSql sql then
        let ((w, file), _) := w.append (disk.wal.getD []) sql
        ({ db with walWriter := some w }, { disk with wal := some file })
      else (db, disk)

/-- The second half of `execute`. -/
def run (db : Database) (now : Int64) (sql : Bytes) : Outcome (Database × QueryResult) := do
  let (ex, r) ← db.executor.executeSql now sql
  .ok ({ db with executor := ex }, r)

/-- `execute` -/
def execute (db : Database) (now : Int64) (disk : Disk) (sql : Bytes) :
    Outcome ((Database × Disk) × QueryResult) := do
  let (db, disk) := db.log disk sql
  let (db, r) ← db.run now sql
  .ok ((db, disk), r)

/-- The sequence number a snapshot taken now covers. -/
def coveredLsn (db : Database) : UInt64 :=
  match db.walWriter with
  | some w => w.currentLsn - 1
  | none => 0

/-- The path of the snapshot. -/
def snapPath (db : Database) : Bytes := db.dataDir ++ Bytes.lit "/snapshot.dat"

/-- `take_snapshot` up to the rename; `tables` lists the tables of the
executor. -/
def saveSnapshot (db : Database) (now : Int64) (fault : Option Snapshot.SaveFault)
    (tables : List (Bytes × Table)) (lsn : UInt64) (disk : Disk) :
    Outcome (Except Bytes (Database × Disk)) := do
  match ← Snapshot.save now fault db.snapPath tables lsn with
  | .error e => .ok (.error e)
  | .ok file => .ok (.ok ({ db with snapshotLsn := lsn }, { disk with snapshot := some file }))

/-- `take_snapshot` after the rename. -/
def truncateWal (db : Database) (disk : Disk) : Database × Disk :=
  match db.walWriter with
  | none => (db, disk)
  | some w =>
      let (w, file) := w.truncate
      ({ db with walWriter := some w }, { disk with wal := some file })

/-- `take_snapshot`; the answer is the error, if there is one. -/
def takeSnapshot (db : Database) (now : Int64) (fault : Option Snapshot.SaveFault)
    (tables : List (Bytes × Table)) (disk : Disk) :
    Outcome ((Database × Disk) × Option Bytes) :=
  if db.persistent then do
    match ← db.saveSnapshot now fault tables db.coveredLsn disk with
    | .error e => .ok ((db, disk), some e)
    | .ok (db, disk) => .ok (db.truncateWal disk, none)
  else .ok ((db, disk), some (Bytes.lit "Persistence not enabled"))

/-- `take_snapshot` when the temporary file has room for so many bytes. -/
def takeSnapshotInto (db : Database) (room : Nat) (now : Int64) (tables : List (Bytes × Table))
    (disk : Disk) : Outcome ((Database × Disk) × Option Bytes) :=
  if db.persistent then do
    let lsn := db.coveredLsn
    match ← Snapshot.saveInto room now tables lsn with
    | .error e => .ok ((db, disk), some e)
    | .ok file =>
        .ok ({ db with snapshotLsn := lsn }.truncateWal { disk with snapshot := some file }, none)
  else .ok ((db, disk), some (Bytes.lit "Persistence not enabled"))

end Database

end FlexQL.Ref
