import FlexQL.Spec.Database
import FlexQL.Spec.Server

/-!
# The server on its database

`main` opens a database and serves its executor. What is on the disk changes
only when the database is asked for it. A write is acknowledged when the
response to it has been sent; it lasts if a crash at any later point leaves a
data directory from which recovery, at whatever time, brings back the table
with its rows.
-/

namespace FlexQL.Spec

open Lib FlexQL.Ref

/-- The process, with one of its connections. -/
structure Host where
  db : Database
  disk : Disk
  /-- What the client has sent and the server has not read. -/
  input : Bytes
  status : Status

/-- The table that the text creates or inserts into. -/
def writes (sql : Bytes) : Option Bytes :=
  match parseSql sql with
  | .ok (.ok (.createTable stmt)) => some (Bytes.toUpper stmt.tableName)
  | .ok (.ok (.insert stmt)) => some (Bytes.toUpper stmt.tableName)
  | _ => none

variable [FloatLib]

namespace Host

/-- The server has the executor, and nothing else of the database. -/
def session (h : Host) : Connection := ⟨h.db.executor, h.input, h.status⟩

def event (h : Host) (e : ServerEvent) : Outcome (Host × Option Bytes) := do
  let (s, response) ← serve h.session e
  .ok (⟨{ h.db with executor := s.executor }, h.disk, s.input, s.status⟩, response)

end Host

/-- The next round takes this text, executes it and sends the response. -/
structure Answered (h : Host) (now : Int64) (sql : Bytes) (h' : Host) : Prop where
  taken : ∃ query rest, TCPServer.recvMessage h.input = (.message query, rest) ∧
    TCPServer.trim query = sql
  filled : sql ≠ []
  stays : TCPServer.isExit sql = false
  sent : ∃ response, h.event (.round now none) = .ok (h', some response)

/-- The text is a write to this table, it succeeds, and its response is sent. -/
structure Acknowledged (h : Host) (now : Int64) (sql : Bytes) (h' : Host) (name : Bytes) :
    Prop where
  answered : Answered h now sql h'
  writes : writes sql = some name
  success : ∃ r, h.db.executor.executeSql now sql = .ok (h'.db.executor, r) ∧ r.success = true

/-- Recovery brings the table back, with at least these rows. -/
def Survives (dataDir : Bytes) (disk : Disk) (name : Bytes) (t : Table) : Prop :=
  ∀ now, ∃ db t' rows rows', (Database.fresh dataDir).recover now disk = .ok db ∧
    db.executor.tables.lookup name = some t' ∧ t'.schema = t.schema ∧
    t.rows.mapM t.readRow = .ok rows ∧ t'.rows.mapM t'.readRow = .ok rows' ∧ rows.Subperm rows'

/-- Every write acknowledged in the run survives a crash at any later point. -/
def Lasting (dataDir : Bytes) (h : Host) (events : List ServerEvent) : Prop :=
  ∀ before now after rest h₁ h₂ h₃ rs₁ rs₂ sql name,
    events = before ++ .round now none :: (after ++ rest) →
    Actions.runAll Host.event h before = .ok (h₁, rs₁) → Acknowledged h₁ now sql h₂ name →
    Actions.runAll Host.event h₂ after = .ok (h₃, rs₂) →
    ∃ t, h₂.db.executor.tables.lookup name = some t ∧ Survives dataDir h₃.disk name t

/-- The text is a write that goes through: it creates a table under a name
that is free and with types that exist, or the table takes all its tuples. -/
def Writable (ex : Executor) (sql : Bytes) : Prop :=
  (∃ stmt schema, parseSql sql = .ok (.ok (.createTable stmt)) ∧
    ex.tables.lookup (Bytes.toUpper stmt.tableName) = none ∧
    Executor.buildSchema Schema.empty stmt.columns = .ok schema) ∨
  ∃ stmt t, parseSql sql = .ok (.ok (.insert stmt)) ∧
    ex.tables.lookup (Bytes.toUpper stmt.tableName) = some t ∧
    ∀ rowVals ∈ stmt.batchValues, Admits t rowVals

/-- No text that is answered in the run is a write that goes through. -/
def ReadOnly (h : Host) (events : List ServerEvent) : Prop :=
  ∀ before now rest h₁ h₂ rs sql, events = before ++ .round now none :: rest →
    Actions.runAll Host.event h before = .ok (h₁, rs) → Answered h₁ now sql h₂ →
    ¬ Writable h₁.db.executor sql

end FlexQL.Spec
