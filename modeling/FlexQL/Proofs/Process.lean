import FlexQL.Proofs.Births
import FlexQL.Proofs.Durability
import FlexQL.Spec.Process

/-!
# What a process leaves on the disk

A crash while a record is being written leaves a part of it, which is not
read: recovery finds the tables as they were before the statement, or after it
if the record is whole. A process of the server writes no records; it leaves
its tables in the snapshot it takes when it ends.
-/

namespace FlexQL.Proofs

open Lib FlexQL.Ref FlexQL.Spec

/-! ## A crash in `execute` -/

section Crashes

variable [FloatLib] {dataDir : Bytes} {s s' : Database × Disk} {c : Catalog}

/-- Recovery sees of the log what can be read of it. -/
theorem recover_congr (db : Database) (now : Int64) (snapshot : Option Bytes) {file file' : Bytes}
    (h : WALReader.readAll file = WALReader.readAll file') :
    db.recover now ⟨snapshot, some file⟩ = db.recover now ⟨snapshot, some file'⟩ := by
  simp only [Database.recover, Database.replayWal, WALReader.replay, h]

theorem Durable.recover_read {w : WALWriter} {lsn : UInt64} {c₀ : Catalog} {recs : List WALRecord}
    (h : Durable dataDir s w lsn c₀ recs c) (ho : Ordered w lsn recs) {file : Bytes}
    (hread : WALReader.readAll file = recs) (now : Int64) :
    ∃ db, (Database.fresh dataDir).recover now ⟨s.2.snapshot, some file⟩ = .ok db ∧
      SameTables s.1.executor.tables db.executor.tables := by
  have hdisk : DiskHolds ⟨s.2.snapshot, some (s.2.wal.getD [])⟩ lsn c₀ recs :=
    ⟨h.disk.snapshot, h.disk.wal, h.disk.sound⟩
  have hall : uncovered lsn recs = recs :=
    List.filter_eq_self.mpr fun r hr => decide_eq_true (ho.recs r hr).1
  obtain ⟨oks, hist⟩ := h.history
  obtain ⟨ex, n, hrec, hm⟩ := hdisk.recover (hall.symm ▸ hist) dataDir now
  refine ⟨recovered dataDir ex lsn n, ?_, h.tables.same hm⟩
  rw [recover_congr _ now s.2.snapshot (hread.trans h.disk.readAll.symm)]
  exact hrec

/-- A record that is not whole is not read. -/
theorem Durable.readAll_torn {w : WALWriter} {lsn : UInt64} {c₀ : Catalog} {recs : List WALRecord}
    (h : Durable dataDir s w lsn c₀ recs c) {r : WALRecord}
    (hr : r.sql.length ≤ WALRecord.maxPayload) {p : Bytes} (hp : p <+: r.encode)
    (hne : p ≠ r.encode) : WALReader.readAll (s.2.wal.getD [] ++ p) = recs := by
  obtain ⟨rest, hrest⟩ := hp
  have htorn : rest ≠ [] := fun hnil => hne (by rw [← hrest, hnil, List.append_nil])
  rw [h.disk.wal, readAll_append p fun r hr => (h.disk.sound r hr).1.short,
    readAll_none (readRecord_torn hr hrest htorn), List.append_nil]

omit [FloatLib] in
theorem log_keeps (db : Database) (disk : Disk) (sql : Bytes) :
    (db.log disk sql).1.executor = db.executor ∧
      (db.log disk sql).2.snapshot = disk.snapshot := by
  rw [Database.log]
  repeat' split
  all_goals exact ⟨rfl, rfl⟩

theorem execute_of_executeSql {db : Database} {disk : Disk} {now : Int64} {sql : Bytes}
    {ex : Executor} {r : QueryResult} (h : db.executor.executeSql now sql = .ok (ex, r)) :
    db.execute now disk sql =
      .ok (({ (db.log disk sql).1 with executor := ex }, (db.log disk sql).2), r) := by
  rw [← (log_keeps db disk sql).1] at h
  rw [Database.execute]
  dsimp only
  rw [Database.run, h]
  rfl

end Crashes

section Runs

attribute [local instance] noDoubles

theorem run_opened : ∃ s, Database.new (Bytes.lit "d") 0 Disk.empty = .ok s ∧
    s.1.executor = Executor.new ∧ Within s.1 := ⟨_, rfl, rfl, by decide +kernel⟩

/-- The first statement of a new database. -/
theorem run_first : ∃ s s' r bytes, Lifetime (Bytes.lit "d") s ∧ Within s.1 ∧
    s.1.execute 0 s.2 (Bytes.lit "CREATE TABLE t (id INT)") = .ok (s', r) ∧
    (s.1.log s.2 (Bytes.lit "CREATE TABLE t (id INT)")).2.wal.getD [] =
      s.2.wal.getD [] ++ bytes := by
  obtain ⟨s, hnew, hex, hw⟩ := run_opened
  have hlife : Lifetime (Bytes.lit "d") s := .opened (by decide) hnew
  obtain ⟨hdir, w, lsn, c₀, recs, c, hd, -⟩ := lifetime_durable hlife
  have hharmless : Harmless (Bytes.lit "CREATE TABLE t (id INT)") := by decide +kernel
  obtain ⟨ex, r, hrun⟩ := stocked_new.executeSql_returns hharmless 0
  have hmut : isMutatingSql (Bytes.lit "CREATE TABLE t (id INT)") = true := by decide +kernel
  have hlog : s.1.log s.2 (Bytes.lit "CREATE TABLE t (id INT)") = _ :=
    log_mutating hd.writer (by rw [hd.dir]; exact hdir) hmut
  have hbytes := congrArg (fun after => after.2.wal.getD []) hlog
  exact ⟨s, _, r, _, hlife, hw, execute_of_executeSql (by rw [hex]; exact hrun), hbytes⟩

end Runs

/-! ## Processes that end -/

section Processes

variable [FloatLib] {dataDir : Bytes} {s s' : Database × Disk} {c : Catalog} {disk : Disk}

/-- The tables store `c`, and nothing is in the log. -/
structure Unlogged (dataDir : Bytes) (s : Database × Disk) (c : Catalog) : Prop where
  dir : s.1.dataDir = dataDir
  writer : ∃ w, s.1.walWriter = some w
  disk : ∃ lsn c₀, DiskHolds s.2 lsn c₀ []
  tables : Models s.1.executor.tables c
  named : Named c

theorem Durable.unlogged {w : WALWriter} {lsn : UInt64} {c₀ : Catalog}
    (h : Durable dataDir s w lsn c₀ [] c) : Unlogged dataDir s c :=
  ⟨h.dir, ⟨w, h.writer⟩, ⟨lsn, c₀, h.disk⟩, h.tables, h.named⟩

theorem Unlogged.serve {db db' : Database} (h : Unlogged dataDir (db, disk) c) {sql : Bytes}
    (hlog : Loggable sql) {now : Int64} {r : QueryResult} (hrun : db.run now sql = .ok (db', r)) :
    ∃ c', Unlogged dataDir (db', disk) c' := by
  obtain ⟨⟨ex, r'⟩, hex, hrun⟩ := Outcome.bind_eq_ok.mp hrun
  obtain ⟨rfl, -⟩ := Prod.mk.inj (Except.ok.inj hrun)
  obtain ⟨c', ok, happ, hm, -⟩ := executeSql_models h.tables hlog.fits hex
  exact ⟨c', h.dir, h.writer, h.disk, hm, h.named.apply hlog.short happ⟩

omit [FloatLib] in
/-- A snapshot fails and changes nothing, or has the tables. -/
theorem Unlogged.snapshot (h : Unlogged dataDir s c) (hw : Within s.1) {now : Int64}
    {fault : Option Snapshot.SaveFault} {tables : List (Bytes × Table)} {e : Option Bytes}
    (hs : Snapshots s.1 now tables)
    (hrun : s.1.takeSnapshot now fault tables s.2 = .ok (s', e)) :
    (e.isSome ∧ s' = s) ∨ (e = none ∧ Unlogged dataDir s' c ∧ Within s'.1 ∧
      ∃ lsn, DiskHolds s'.2 lsn c []) := by
  obtain ⟨w, hwriter⟩ := h.writer
  obtain ⟨lsn, c₀, hdisk⟩ := h.disk
  rcases takeSnapshot_cases hwriter hrun with hfail | ⟨he, file, hfile, rfl⟩
  · exact .inl hfail
  · obtain ⟨file', hfile', hcov⟩ := contents_covers h.tables h.named hs.order hs.live
      (by rw [Enumerates.length_eq hs.order]; exact hw.tables) hw.rows (w.nextLsn - 1)
    obtain rfl := Except.ok.inj (hfile.symm.trans hfile')
    have hheld := (hdisk.save hcov).truncate
    exact .inr ⟨he, ⟨h.dir, h.writer, ⟨_, _, hheld⟩, h.tables, h.named⟩,
      ⟨hw.tables, hw.rows, hw.lsn⟩, _, hheld⟩

omit [FloatLib] in
/-- When one of the two snapshots of the exit succeeds, the disk has the
tables. -/
theorem Unlogged.exits (h : Unlogged dataDir s c) (hexit : Exits s disk) :
    ∃ lsn, DiskHolds disk lsn c [] := by
  cases hexit with
  | mk hw hs₁ hrun₁ hs₂ hrun₂ hone =>
      rcases h.snapshot hw hs₁ hrun₁ with ⟨hsome, rfl⟩ | ⟨-, h₁, hw₁, lsn₁, hheld₁⟩
      · rcases h.snapshot hw hs₂ hrun₂ with ⟨hsome', -⟩ | ⟨-, -, -, hheld⟩
        · rcases hone with rfl | rfl
          · exact absurd hsome (by simp)
          · exact absurd hsome' (by simp)
        · exact hheld
      · rcases h₁.snapshot hw₁ hs₂ hrun₂ with ⟨-, rfl⟩ | ⟨-, -, -, hheld⟩
        · exact ⟨lsn₁, hheld₁⟩
        · exact hheld

theorem processes_unlogged (h : Processes dataDir s) :
    dataDir ≠ [] ∧ ∃ c, Unlogged dataDir s c := by
  induction h with
  | opened hdir hnew => exact ⟨hdir, ∅, (durable_opened hdir hnew).unlogged⟩
  | serve _ hlog hrun ih =>
      obtain ⟨hdir, c, hc⟩ := ih
      exact ⟨hdir, hc.serve hlog hrun⟩
  | restart _ hexit hnew ih =>
      obtain ⟨hdir, c, hc⟩ := ih
      obtain ⟨lsn, hheld⟩ := hc.exits hexit
      exact ⟨hdir, c, (durable_new hdir hheld (by simp) rfl hc.named hnew).unlogged⟩

end Processes

section Exit

attribute [local instance] noDoubles

end Exit

end FlexQL.Proofs
