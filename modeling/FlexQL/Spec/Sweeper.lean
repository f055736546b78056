import FlexQL.Ref.TTLManager
import FlexQL.Spec.Ages

/-!
# What a sweep must do

After a sweep no row that still counts has expired, so that the number of rows
a table gives is the number a scan shows. Whether there is anything to sweep is
said with the times at which the rows were put into the tables: by an `INSERT`,
or by the constructor where it restores them from the files.
-/

namespace FlexQL.Spec

open Lib FlexQL.Ref

/-- The table is as a sweep at `now` has to leave it. -/
structure Covered (now : Int64) (t : Table) : Prop where
  /-- No row with the flag set has expired. -/
  rows : ∀ p ∈ t.rows, ∀ expiry, t.readValid p = .ok 1 → t.readExpiry p = .ok expiry →
    ¬ (0 < expiry ∧ expiry < now)
  /-- `row_count()` is the size of `scan_all()`. -/
  count : ∃ rows, t.scanAll now = .ok rows ∧ t.rowCount = UInt64.ofNat rows.length

/-- A row that was put into a table at `time` has expired at `now`. -/
def Lapsed (now time : Int64) : Prop :=
  0 < expiryAt defaultTtlSeconds time ∧ expiryAt defaultTtlSeconds time < now

variable [FloatLib]

/-- The states of a database that was opened on the files `start`, with the
times at which the rows of its tables were put in, by name and in the order of
the rows. -/
inductive Tended (dataDir : Bytes) (start : Disk) :
    SweptDatabase × Disk → (Bytes → List Int64) → Prop where
  | opened {now : Int64} {s : SweptDatabase × Disk} :
      SweptDatabase.new dataDir now start = .ok s →
      Tended dataDir start s fun name => List.replicate (rowsIn s.1.executor.tables name) now
  | execute {s : SweptDatabase} {disk : Disk} {times : Bytes → List Int64}
      {after : SweptDatabase × Disk} {now : Int64} {sql : Bytes} {r : QueryResult} :
      Tended dataDir start (s, disk) times → s.execute now disk sql = .ok (after, r) →
      Tended dataDir start after
        (stamp s.executor.tables after.1.executor.tables now times)
  | snapshot {s : SweptDatabase} {disk : Disk} {times : Bytes → List Int64}
      {after : SweptDatabase × Disk} {now : Int64} {fault : Option Snapshot.SaveFault}
      {tables : List (Bytes × Table)} {e : Option Bytes} :
      Tended dataDir start (s, disk) times → Enumerates tables s.executor.tables →
      s.takeSnapshot now fault tables disk = .ok (after, e) → Tended dataDir start after times
  | sweep {s s' : SweptDatabase} {disk : Disk} {times : Bytes → List Int64} {now : Int64}
      {removed : Nat} :
      Tended dataDir start (s, disk) times → s.sweepNow now = .ok (s', removed) →
      Tended dataDir start (s', disk) times

end FlexQL.Spec
