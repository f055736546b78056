import FlexQL.Proofs.Births
import FlexQL.Proofs.Database

/-!
# Harmless texts do not poison the log

A text is logged before it is parsed, and parsed again at every restart. As
long as all texts are harmless, each call returns, and so does the recovery
from the log or any front part of it, since it runs texts that ran before.
-/

namespace FlexQL.Proofs

open Lib FlexQL.Ref FlexQL.Spec

/-- A log of harmless records. -/
structure LogHolds (disk : Disk) (recs : List WALRecord) : Prop where
  snapshot : disk.snapshot = none
  wal : disk.wal.getD [] = recs.flatMap WALRecord.encode
  short : ∀ r ∈ recs, r.sql.length ≤ WALRecord.maxPayload
  harmless : ∀ r ∈ recs, Harmless r.sql

theorem LogHolds.append {disk : Disk} {recs : List WALRecord} (h : LogHolds disk recs)
    (lsn : UInt64) {sql : Bytes} (hshort : sql.length ≤ WALRecord.maxPayload)
    (hsql : Harmless sql) :
    LogHolds { disk with wal := some (disk.wal.getD [] ++ (WALRecord.mk lsn sql).encode) }
      (recs ++ [⟨lsn, sql⟩]) := by
  refine ⟨h.snapshot, ?_, fun r hr => ?_, fun r hr => ?_⟩
  · rw [h.wal, List.flatMap_append, List.flatMap_singleton]
    rfl
  · rcases List.mem_append.mp hr with hr | hr
    · exact h.short r hr
    · rw [List.mem_singleton.mp hr]
      exact hshort
  · rcases List.mem_append.mp hr with hr | hr
    · exact h.harmless r hr
    · rw [List.mem_singleton.mp hr]
      exact hsql

/-- The database between two calls. -/
structure Open (s : Database × Disk) : Prop where
  dataDir : s.1.dataDir ≠ []
  writer : ∃ w, s.1.walWriter = some w
  executor : ∃ rows, Stocked s.1.executor rows
  disk : ∃ recs, LogHolds s.2 recs

/-- The database that opens an empty directory. -/
def opened (dataDir : Bytes) : Database × Disk :=
  ({ Database.fresh dataDir with walWriter := some ⟨1⟩ }, ⟨none, some []⟩)

theorem open_new {dataDir : Bytes} (hdir : dataDir ≠ []) : Open (opened dataDir) :=
  ⟨hdir, ⟨_, rfl⟩, ⟨_, stocked_new⟩, [], rfl, rfl, by simp, by simp⟩

section Logs

variable [FloatLib] {db : Database} {rows : Bytes → List Record} {recs : List WALRecord}

/-- Replaying harmless records returns. -/
theorem replayRecords_returns (now : Int64) (h : Stocked db.executor rows)
    (hrecs : ∀ r ∈ recs, Harmless r.sql) (n : Nat) :
    ∃ db' n', WALReader.replayRecords (Database.replayRecord now) db n recs = .ok (db', n') := by
  induction recs generalizing db rows n with
  | nil => exact ⟨db, n, rfl⟩
  | cons rec recs ih =>
      have hrest : ∀ r ∈ recs, Harmless r.sql := fun r hr => hrecs r (List.mem_cons_of_mem _ hr)
      have hrec := hrecs rec List.mem_cons_self
      rw [WALReader.replayRecords, Database.replayRecord]
      split
      · exact ih h hrest (n + 1)
      · obtain ⟨ex, r, hrun⟩ := h.executeSql_returns hrec now
        simp only [hrun, Outcome.bind_ok, if_true]
        exact @ih { db with executor := ex } _ (h.executeSql hrec.fits hrun) hrest (n + 1)

/-- A directory with harmless records can be opened. -/
theorem new_returns (dataDir : Bytes) (now : Int64) {disk : Disk}
    (hsnap : disk.snapshot = none)
    (hrecs : ∀ r ∈ WALReader.readAll (disk.wal.getD []), Harmless r.sql) :
    ∃ s, Database.new dataDir now disk = .ok s := by
  rw [Database.new]
  split
  · rw [Database.recover, hsnap]
    cases hwal : disk.wal with
    | none => exact ⟨_, rfl⟩
    | some file =>
        rw [hwal, Option.getD_some] at hrecs
        obtain ⟨db, n, hrun⟩ := @replayRecords_returns _ (Database.fresh dataDir) _ _ now
          stocked_new hrecs 0
        simp only [Database.loadSnapshot, Outcome.bind_ok, Database.replayWal, WALReader.replay,
          hrun]
        exact ⟨_, rfl⟩
  · exact ⟨_, rfl⟩

theorem new_empty {dataDir : Bytes} (hdir : dataDir ≠ []) (now : Int64) :
    Database.new dataDir now Disk.empty = .ok (opened dataDir) := by
  have hp : (Database.fresh dataDir).persistent = true := by
    simp [Database.persistent, Database.fresh, hdir]
  rw [Database.new, if_pos hp]
  simp only [WALWriter.new, Disk.empty, Option.getD_none, readAll_nil]
  rfl

/-- A harmless call returns and leaves an open database. -/
theorem Open.execute {s : Database × Disk} (h : Open s) {call : Int64 × Bytes}
    (hshort : call.2.length ≤ WALRecord.maxPayload) (hsql : Harmless call.2) :
    ∃ s' r, executeCall s call = .ok (s', r) ∧ Open s' := by
  obtain ⟨w, hw⟩ := h.writer
  obtain ⟨rows, hrows⟩ := h.executor
  obtain ⟨recs, hrecs⟩ := h.disk
  obtain ⟨ex, r, hrun⟩ := hrows.executeSql_returns hsql call.1
  have hafter := hrows.executeSql hsql.fits hrun
  rw [executeCall, Database.execute]
  cases hmut : isMutatingSql call.2 with
  | false =>
      simp only [log_other hmut, Database.run, hrun, Outcome.bind_ok]
      exact ⟨_, r, rfl, h.dataDir, ⟨w, hw⟩, ⟨_, hafter⟩, recs, hrecs⟩
  | true =>
      simp only [log_mutating hw h.dataDir hmut, Database.run, hrun, Outcome.bind_ok]
      exact ⟨_, r, rfl, h.dataDir, ⟨_, rfl⟩, ⟨_, hafter⟩, _, hrecs.append _ hshort hsql⟩

/-- Harmless calls return, one after another. -/
theorem Open.executeAll {s : Database × Disk} (h : Open s) {calls : List (Int64 × Bytes)}
    (hcalls : ∀ call ∈ calls, call.2.length ≤ WALRecord.maxPayload ∧ Harmless call.2) :
    ∃ s' rs, Actions.runAll executeCall s calls = .ok (s', rs) ∧ Open s' := by
  induction calls generalizing s with
  | nil => exact ⟨s, [], rfl, h⟩
  | cons call calls ih =>
      obtain ⟨hshort, hsql⟩ := hcalls call List.mem_cons_self
      obtain ⟨s₁, r, hrun, h₁⟩ := h.execute hshort hsql
      obtain ⟨s', rs, hrest, h'⟩ := ih h₁ fun c hc => hcalls c (List.mem_cons_of_mem _ hc)
      exact ⟨s', r :: rs, Actions.runAll_cons hrun hrest, h'⟩

/-- Texts that are all harmless: every call returns, and the directory can be
opened again at any time, wherever a crash cut the log off. -/
theorem executeAll_harmless {dataDir : Bytes} (hdir : dataDir ≠ []) (now : Int64)
    {calls : List (Int64 × Bytes)}
    (hcalls : ∀ call ∈ calls, call.2.length ≤ 10 * 1024 * 1024 ∧ Harmless call.2) :
    ∃ s s' rs, Database.new dataDir now Disk.empty = .ok s ∧
      Actions.runAll executeCall s calls = .ok (s', rs) ∧ rs.length = calls.length ∧
      ∀ file, file <+: s'.2.wal.getD [] → ∀ later,
        ∃ s'', Database.new dataDir later { s'.2 with wal := some file } = .ok s'' := by
  obtain ⟨s', rs, hrun, hopen'⟩ := (open_new hdir).executeAll hcalls
  refine ⟨_, s', rs, new_empty hdir now, hrun, Actions.runAll_length hrun, ?_⟩
  intro file hfile later
  obtain ⟨recs, hrecs⟩ := hopen'.disk
  rw [hrecs.wal] at hfile
  refine new_returns dataDir later hrecs.snapshot fun r hr => ?_
  exact hrecs.harmless r (mem_readAll_of_front hrecs.short hfile r hr)

end Logs

section Runs

attribute [local instance] noDoubles

/-- A table, a row, a query and a text that is no statement. -/
theorem executeAll_harmless_three :
    let calls : List (Int64 × Bytes) := [(0, Bytes.lit "CREATE TABLE t (a VARCHAR(5))"),
      (1, Bytes.lit "INSERT INTO t VALUES ('x')"), (2, Bytes.lit "SELECT FROM")]
    ∃ s s' rs, Database.new (Bytes.lit "data") 0 Disk.empty = .ok s ∧
      Actions.runAll executeCall s calls = .ok (s', rs) ∧ rs.length = calls.length ∧
      ∀ file, file <+: s'.2.wal.getD [] → ∀ later,
        ∃ s'', Database.new (Bytes.lit "data") later { s'.2 with wal := some file } = .ok s'' :=
  executeAll_harmless (by decide) 0 (by decide +kernel)

/-- The length of the `VARCHAR` is no `int`: the call throws, and as the text
is in the log by then, so does every attempt to open the directory. -/
theorem varchar_length_poisons_log :
    let sql := Bytes.lit "CREATE TABLE t (a VARCHAR(99999999999))"
    ∃ s, Database.new (Bytes.lit "data") 0 Disk.empty = .ok s ∧
      s.1.execute 0 s.2 sql = .error .thrown ∧
      ∀ later, Database.new (Bytes.lit "data") later (s.1.log s.2 sql).2 = .error .thrown := by
  intro sql
  have hparse : parseSql sql = .error .thrown := by decide +kernel
  have hrun : ∀ (ex : Executor) now, ex.executeSql now sql = .error .thrown := by
    intro ex now
    rw [Executor.executeSql, hparse, Outcome.bind_error]
  have hdir : Bytes.lit "data" ≠ [] := by decide
  have hlog : (opened (Bytes.lit "data")).1.log (opened (Bytes.lit "data")).2 sql = _ :=
    log_mutating rfl hdir (by decide +kernel)
  refine ⟨opened (Bytes.lit "data"), new_empty hdir 0, ?_, fun later => ?_⟩
  · rw [Database.execute, hlog]
    simp only [Database.run, hrun, Outcome.bind_error]
  · have hread : WALReader.readAll (WALRecord.mk 1 sql).encode = [⟨1, sql⟩] := by
      rw [← List.flatMap_singleton WALRecord.encode, readAll_encode (by decide +kernel)]
    have hp : (Database.fresh (Bytes.lit "data")).persistent = true := by decide
    rw [hlog, Database.new, if_pos hp]
    simp only [opened, Option.getD_some, List.nil_append, Database.recover, Database.loadSnapshot,
      Outcome.bind_ok, Database.replayWal, WALReader.replay, hread, WALReader.replayRecords]
    rw [Database.replayRecord, if_neg (by decide), hrun]
    rfl

end Runs

end FlexQL.Proofs
