import FlexQL.Spec.LRUCache
import FlexQL.Spec.Reach

/-!
# Calls that share an executor

The calls of several threads run step by step, in any order. A `SELECT` looks
into the cache, scans, and stores its answer; an `INSERT` stores one tuple
after another, drops the answers for its table, and is acknowledged. Between
two steps of a call any steps of others may come.

The state remembers more than the program does: the scans that were made, and
which acknowledged writes a query found when it began.
-/

namespace FlexQL.Spec

open Lib FlexQL.Ref

/-- What an `INSERT` wrote: the name of its table, and the table as its last
tuple left it. -/
structure Written where
  tableName : Bytes
  table : Table

/-- A scan, with the tables it saw. -/
structure Scan where
  tables : Finmap fun _ : Bytes => Table
  now : Int64
  stmt : SelectStmt
  rawSql : Bytes

/-- Where a call is. A query carries the writes acknowledged before it. -/
inductive Progress where
  | missed (stmt : SelectStmt) (rawSql : Bytes) (before : List Written)
  | scanned (scan : Scan) (before : List Written) (r : CachedResult)
  | answered (stmt : SelectStmt) (rawSql : Bytes) (before : List Written)
      (answer : Except Bytes CachedResult)
  | inserting (w : Written) (left : List (List Bytes)) (n : Nat)
  | invalidated (w : Written) (n : Nat)
  | acknowledged (w : Written) (n : Nat)
  | refused (error : Bytes)

/-- An executor and the calls on it. -/
structure Shared where
  ex : Executor
  calls : List Progress
  written : List Written
  scans : List Scan

inductive Action where
  | create (stmt : CreateTableStmt)
  | select (stmt : SelectStmt) (rawSql : Bytes)
  | insert (stmt : InsertStmt)
  /-- The next step of a call. -/
  | advance (i : Nat)

namespace Shared

def start (ex : Executor) : Shared := ⟨ex, [], [], []⟩

variable [FloatLib]

/-- A tuple of an `INSERT`. -/
def insertTuple (s : Shared) (now : Int64) (i : Nat) (w : Written) (rowVals : List Bytes)
    (left : List (List Bytes)) (n : Nat) : Outcome Shared :=
  match s.ex.tables.lookup w.tableName with
  | none => .error .undefined
  | some t =>
      match Executor.parseTuple t.schema rowVals with
      | .error e => .ok { s with calls := s.calls.set i (.refused e) }
      | .ok row => do
          let (t, e) ← t.insert now row
          let call := match e with
            | some e => .refused e
            | none => .inserting ⟨w.tableName, t⟩ left (n + 1)
          .ok { s with
            ex := { s.ex with tables := s.ex.tables.insert w.tableName t }
            calls := s.calls.set i call }

/-- The next step of call `i`. -/
def advance (s : Shared) (now : Int64) (i : Nat) : Progress → Outcome Shared
  | .missed stmt rawSql before => do
      let scan : Scan := ⟨s.ex.tables, now, stmt, rawSql⟩
      let answer ← Executor.selectRows s.ex.tables now stmt
      let call := match answer with
        | .error e => .answered stmt rawSql before (.error e)
        | .ok r => .scanned scan before r
      .ok { s with calls := s.calls.set i call, scans := s.scans ++ [scan] }
  | .scanned scan before r => do
      let cache ← Executor.fillCache s.ex.cache scan.rawSql r
      .ok { s with
        ex := { s.ex with cache := cache }
        calls := s.calls.set i (.answered scan.stmt scan.rawSql before (.ok r)) }
  | .inserting w (rowVals :: left) n => s.insertTuple now i w rowVals left n
  | .inserting w [] n => do
      let cache ← s.ex.cache.invalidateTable w.tableName
      .ok { s with
        ex := { s.ex with cache := cache }
        calls := s.calls.set i (.invalidated w n) }
  | .invalidated w n => .ok { s with
      calls := s.calls.set i (.acknowledged w n)
      written := s.written ++ [w] }
  | .answered .. => .ok s
  | .acknowledged .. => .ok s
  | .refused _ => .ok s

/-- A call that begins, or the next step of one. -/
def step (s : Shared) (now : Int64) : Action → Outcome Shared
  | .create stmt => do
      let (ex, _) ← s.ex.execCreateTable stmt
      .ok { s with ex := ex }
  | .select stmt rawSql => do
      let (cache, cached) ← Executor.lookupCache s.ex.cache rawSql
      let call := match cached with
        | some r => .answered stmt rawSql s.written (.ok r)
        | none => .missed stmt rawSql s.written
      .ok { s with ex := { s.ex with cache := cache }, calls := s.calls ++ [call] }
  | .insert stmt =>
      let tableName := Bytes.toUpper stmt.tableName
      let call := match s.ex.tables.lookup tableName with
        | none => .refused (Bytes.lit "Table not found: " ++ tableName)
        | some t => .inserting ⟨tableName, t⟩ stmt.batchValues 0
      .ok { s with calls := s.calls ++ [call] }
  | .advance i =>
      match s.calls[i]? with
      | none => .ok s
      | some call => s.advance now i call

end Shared

/-- A table that inserts, successful or not, lead to from another. -/
def Later : Table → Table → Prop :=
  Relation.ReflTransGen fun t t' => ∃ now row e, t.insert now row = .ok (t', e)

/-- The tables have what was written. -/
def Contains (tables : Finmap fun _ : Bytes => Table) (w : Written) : Prop :=
  ∃ t, tables.lookup w.tableName = some t ∧ Later w.table t

/-- What a step must meet. A query's text names the table it reads where the
cache looks for it, and when an `INSERT` drops the answers for its table no
query on the table is about to store one that lacks its rows. -/
def Guard (s : Shared) : Action → Prop
  | .select stmt rawSql =>
      rawSql = [] ∨ takenToRead stmt.tableName (LRUCache.normalize rawSql)
  | .advance i => ∀ w n, s.calls[i]? = some (.inserting w [] n) →
      ∀ scan before r, .scanned scan before r ∈ s.calls →
        Bytes.toUpper scan.stmt.tableName = Bytes.toUpper w.tableName → Contains scan.tables w
  | _ => True

variable [FloatLib]

/-- The states that guarded steps lead to. -/
inductive Guarded : Shared → Prop where
  | start {ex : Executor} : Reachable ex → Guarded (.start ex)
  | step {s s' : Shared} {now : Int64} {a : Action} : Guarded s → Guard s a →
      s.step now a = .ok s' → Guarded s'

/-- Every answer to a query on a table comes from a scan that saw the writes
to the table that were acknowledged before the query began. -/
def SeesWrites (s : Shared) : Prop :=
  ∀ stmt rawSql before answer, .answered stmt rawSql before answer ∈ s.calls →
    ∀ w ∈ before, w.tableName = Bytes.toUpper stmt.tableName →
      ∃ scan ∈ s.scans, LRUCache.normalize scan.rawSql = LRUCache.normalize rawSql ∧
        Bytes.toUpper scan.stmt.tableName = Bytes.toUpper stmt.tableName ∧
        Contains scan.tables w ∧ Executor.selectRows scan.tables scan.now scan.stmt = .ok answer

end FlexQL.Spec
