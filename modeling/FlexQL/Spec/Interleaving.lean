import FlexQL.Spec.Database

/-!
# Calls that overlap

A call of `execute` is two steps: the text goes to the log, and later it is
executed. A call of `take_snapshot` is three: it reads the sequence number,
saves the tables and empties the log. The steps of any number of calls of
`execute` and of one snapshot at a time may come in any order. The state keeps
the calls in the order in which they took their first step, with the numbers
of their records and their answers.
-/

namespace FlexQL.Spec

open Lib FlexQL.Ref

/-- A call of `execute` after its first step. -/
structure OpenCall where
  sql : Bytes
  /-- The number of its record, if there is one. -/
  lsn : Option UInt64
  /-- Whether it succeeded, once it has returned. -/
  answer : Option Bool
  deriving DecidableEq, Repr

namespace OpenCall

/-- Its record in the log. -/
def record (k : OpenCall) : Option WALRecord := k.lsn.map fun lsn => ⟨lsn, k.sql⟩

/-- The number of its record and its answer. -/
def acknowledged (k : OpenCall) : Option (UInt64 × Bool) :=
  k.lsn.bind fun lsn => k.answer.map fun ok => (lsn, ok)

/-- The call went to the log and was not executed yet. -/
def Waiting (k : OpenCall) : Prop := k.lsn.isSome ∧ k.answer = none

instance (k : OpenCall) : Decidable k.Waiting :=
  inferInstanceAs (Decidable (k.lsn.isSome ∧ k.answer = none))

end OpenCall

/-- How far a call of `take_snapshot` has come. -/
inductive Snapshotting where
  | idle
  | numbered (lsn : UInt64)
  | saved
  deriving DecidableEq, Repr

structure Session where
  db : Database
  disk : Disk
  calls : List OpenCall
  snapshot : Snapshotting

/-- A step of a call. -/
inductive SessionStep where
  | log (sql : Bytes)
  | run (now : Int64) (i : Nat)
  | readLsn
  | save (now : Int64) (fault : Option Snapshot.SaveFault) (tables : List (Bytes × Table))
  | truncate

/-- The step belongs to a call of `execute`. -/
def SessionStep.ofExecute : SessionStep → Bool
  | .log _ => true
  | .run _ _ => true
  | _ => false

namespace Session

/-- A database with no call on its way. -/
def opened (s : Database × Disk) : Session := ⟨s.1, s.2, [], .idle⟩

/-- The number `append` gives to the record of the text. -/
def recordLsn (db : Database) (sql : Bytes) : Option UInt64 :=
  if db.persistent && isMutatingSql sql then db.walWriter.map (·.currentLsn) else none

variable [FloatLib]

/-- One step. A step that is not due changes nothing. -/
def step (s : Session) : SessionStep → Outcome Session
  | .log sql =>
      let (db, disk) := s.db.log s.disk sql
      .ok { s with db, disk, calls := s.calls ++ [⟨sql, recordLsn s.db sql, none⟩] }
  | .run now i =>
      match s.calls[i]? with
      | some ⟨sql, lsn, none⟩ => do
          let (db, r) ← s.db.run now sql
          .ok { s with db, calls := s.calls.set i ⟨sql, lsn, some r.success⟩ }
      | _ => .ok s
  | .readLsn =>
      match s.snapshot with
      | .idle =>
          if s.db.persistent then .ok { s with snapshot := .numbered s.db.coveredLsn } else .ok s
      | _ => .ok s
  | .save now fault tables =>
      match s.snapshot with
      | .numbered lsn => do
          match ← s.db.saveSnapshot now fault tables lsn s.disk with
          | .error _ => .ok { s with snapshot := .idle }
          | .ok (db, disk) => .ok { s with db, disk, snapshot := .saved }
      | _ => .ok s
  | .truncate =>
      match s.snapshot with
      | .saved =>
          let (db, disk) := s.db.truncateWal s.disk
          .ok { s with db, disk, snapshot := .idle }
      | _ => .ok s

end Session

/-! ## When the log agrees with the tables -/

/-- The table a text writes to. -/
def target (sql : Bytes) : Option Bytes :=
  match parseSql sql with
  | .ok (.ok (.createTable stmt)) => some (Bytes.toUpper stmt.tableName)
  | .ok (.ok (.insert stmt)) => some (Bytes.toUpper stmt.tableName)
  | _ => none

/-- The texts write to one table. -/
def Conflict (sql sql' : Bytes) : Prop := ∃ name, target sql = some name ∧ target sql' = some name

instance (sql sql' : Bytes) : Decidable (Conflict sql sql') :=
  decidable_of_iff ((target sql).isSome ∧ target sql' = target sql) <| by
    constructor
    · intro h
      obtain ⟨name, hname⟩ := Option.isSome_iff_exists.mp h.1
      exact ⟨name, hname, h.2.trans hname⟩
    · intro ⟨name, h, h'⟩
      exact ⟨by rw [h]; rfl, h'.trans h.symm⟩

/-- No logged call waits. -/
def NoneWaiting (calls : List OpenCall) : Prop := ∀ k ∈ calls, ¬ k.Waiting

instance (calls : List OpenCall) : Decidable (NoneWaiting calls) :=
  inferInstanceAs (Decidable (∀ k ∈ calls, ¬ k.Waiting))

/-- The call at `i` overtakes no call that writes to its table: none that was
logged before it still waits. -/
def InOrder (s : Session) (i : Nat) : Prop :=
  ∀ k ∈ s.calls[i]?, k.lsn.isSome → ∀ k' ∈ s.calls.take i, k'.Waiting → ¬ Conflict k'.sql k.sql

instance (s : Session) (i : Nat) : Decidable (InOrder s i) :=
  inferInstanceAs (Decidable (∀ k ∈ s.calls[i]?, k.lsn.isSome → ∀ k' ∈ s.calls.take i,
    k'.Waiting → ¬ Conflict k'.sql k.sql))

/-- What can happen at all: texts that fit the log, and a snapshot of the
tables there are. -/
def Possible (s : Session) : SessionStep → Prop
  | .log sql => Within s.db ∧ Loggable sql
  | .save now _ tables => Within s.db ∧ Snapshots s.db now tables
  | _ => True

/-- What the order of the steps must respect: the log, for statements on one
table; a snapshot saves when no logged call waits, and nothing is logged from
there to its end. -/
def KeepsOrder (s : Session) : SessionStep → Prop
  | .log sql => s.snapshot = .saved → isMutatingSql sql = false
  | .run _ i => InOrder s i
  | .save _ _ _ => NoneWaiting s.calls
  | _ => True

variable [FloatLib]

/-- The states the steps lead to that meet a condition. -/
inductive Session.Reach (P : Session → SessionStep → Prop) (s₀ : Session) : Session → Prop where
  | start : Reach P s₀ s₀
  | step {s s' : Session} {a : SessionStep} :
      Reach P s₀ s → P s a → s.step a = .ok s' → Reach P s₀ s'

/-- What the replay of a data directory answers: for each record that is
executed its number and whether its statement succeeds. -/
def recoveryAnswers (dataDir : Bytes) (now : Int64) (disk : Disk) :
    Outcome (List (UInt64 × Bool)) := do
  let db ← (Database.fresh dataDir).loadSnapshot now disk.snapshot
  let (_, answers) ← replayAnswers now db (WALReader.readAll (disk.wal.getD []))
  .ok answers

end FlexQL.Spec
