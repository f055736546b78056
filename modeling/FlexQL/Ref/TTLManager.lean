import FlexQL.Ref.Database

/-!
# The sweeper (`ttl_manager.h`, `ttl_manager.cpp`)

A `TTLManager` sweeps the tables that are registered with it. They belong to
the executor; a pointer to one is given by the name it has there. The thread of
the sweeper calls `sweep_now` every so often, so its rounds are calls at any
time.

A database has a sweeper, and starts and stops its thread. No function of the
database or the executor registers a table.
-/

namespace FlexQL.Ref

open Lib

/-- `TTLManager` -/
structure TTLManager where
  /-- `tables_`, in the order of its iteration: under each name the table that
  is pointed to -/
  tables : List (Bytes × Bytes)

namespace TTLManager

/-- The constructor. -/
def new : TTLManager := ⟨[]⟩

/-- `register_table` -/
def registerTable (m : TTLManager) (name table : Bytes) : TTLManager :=
  ⟨(name, table) :: m.tables.filter (·.1 ≠ name)⟩

/-- The loop of `sweep_now`; a pointer to a table that is gone is dangling. -/
def sweepTables (now : Int64) : List (Bytes × Bytes) → (Finmap fun _ : Bytes => Table) → Nat →
    Outcome ((Finmap fun _ : Bytes => Table) × Nat)
  | [], tables, removed => .ok (tables, removed)
  | (_, table) :: rest, tables, removed =>
      match tables.lookup table with
      | none => .error .undefined
      | some t => do
          let (t, cleaned) ← t.cleanupExpired now
          sweepTables now rest (tables.insert table t) (removed + cleaned)

/-- `sweep_now` -/
def sweepNow (m : TTLManager) (now : Int64) (tables : Finmap fun _ : Bytes => Table) :
    Outcome ((Finmap fun _ : Bytes => Table) × Nat) :=
  sweepTables now m.tables tables 0

end TTLManager

/-- `Database` with the member `ttl_mgr_`. -/
structure SweptDatabase extends Database where
  ttlMgr : TTLManager

namespace SweptDatabase

/-- `ttl_manager().sweep_now()` -/
def sweepNow (s : SweptDatabase) (now : Int64) : Outcome (SweptDatabase × Nat) := do
  let (tables, removed) ← s.ttlMgr.sweepNow now s.executor.tables
  .ok ({ s with executor := { s.executor with tables } }, removed)

/-- `take_snapshot` -/
def takeSnapshot (s : SweptDatabase) (now : Int64) (fault : Option Snapshot.SaveFault)
    (tables : List (Bytes × Table)) (disk : Disk) :
    Outcome ((SweptDatabase × Disk) × Option Bytes) := do
  let ((db, disk), e) ← s.toDatabase.takeSnapshot now fault tables disk
  .ok (({ s with toDatabase := db }, disk), e)

variable [FloatLib]

/-- The constructor. -/
def new (dataDir : Bytes) (now : Int64) (disk : Disk) : Outcome (SweptDatabase × Disk) := do
  let (db, disk) ← Database.new dataDir now disk
  .ok ({ toDatabase := db, ttlMgr := TTLManager.new }, disk)

/-- `execute` -/
def execute (s : SweptDatabase) (now : Int64) (disk : Disk) (sql : Bytes) :
    Outcome ((SweptDatabase × Disk) × QueryResult) := do
  let ((db, disk), r) ← s.toDatabase.execute now disk sql
  .ok (({ s with toDatabase := db }, disk), r)

end SweptDatabase

end FlexQL.Ref
