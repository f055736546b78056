import FlexQL.Proofs.Snapshot
import FlexQL.Proofs.Statements
import FlexQL.Proofs.Wal

/-!
# Recovery

`DiskHolds disk lsn c recs` says what the two files stand for: a snapshot of
the catalog `c` that covers the sequence numbers up to `lsn`, and a log of
the records `recs`. Recovery applies to `c` the records the snapshot does not
cover, and nothing else, so a restart gives back the tables it found if those
records take `c` to what the tables stored.
-/

namespace FlexQL.Proofs

open Lib FlexQL.Ref FlexQL.Spec

/-! ## Names -/

theorem columnDataType_known {typeName : Bytes} {dt : DataType}
    (h : Executor.columnDataType typeName = some dt) : Known dt := by
  intro code hcode
  subst hcode
  rw [Executor.columnDataType] at h
  repeat' split at h
  all_goals exact absurd h (by simp)

theorem buildSchema_named {n : Nat} {s s' : Schema} {cols : List AstColumnDef}
    (h : Executor.buildSchema s cols = .ok s')
    (hs : ∀ c ∈ s.columns, c.name.length ≤ n ∧ Known c.type)
    (hcols : ∀ col ∈ cols, col.name.length ≤ n) :
    ∀ c ∈ s'.columns, c.name.length ≤ n ∧ Known c.type := by
  induction cols generalizing s with
  | nil =>
      obtain rfl := Except.ok.inj h
      exact hs
  | cons col cols ih =>
      rw [Executor.buildSchema] at h
      split at h
      · exact absurd h (by simp)
      · next dt hdt =>
          refine ih h ?_ fun x hx => hcols x (by simp [hx])
          intro c hc
          rcases List.mem_append.mp hc with hc | hc
          · exact hs c hc
          · rw [List.mem_singleton.mp hc]
            refine ⟨?_, columnDataType_known hdt⟩
            rw [Bytes.toUpper_length]
            exact hcols col (by simp)

theorem named_empty : Named ∅ := by
  intro name r h
  rw [Finmap.lookup_empty] at h
  exact absurd h (by simp)

theorem Named.insert {c : Catalog} (h : Named c) {name : Bytes} {r : Rel}
    (hname : name.length ≤ Snapshot.maxStr)
    (hcols : ∀ col ∈ r.schema.columns, col.name.length ≤ Snapshot.maxStr ∧ Known col.type) :
    Named (Finmap.insert name r c) := by
  intro name' r' hlook
  by_cases hn : name' = name
  · subst hn
    rw [Finmap.lookup_insert] at hlook
    obtain rfl := Option.some.inj hlook
    exact ⟨hname, hcols⟩
  · rw [Finmap.lookup_insert_of_ne _ hn] at hlook
    exact h name' r' hlook

/-! ## Records -/

/-- A record that belongs in the log. -/
def Sound (r : WALRecord) : Prop := Loggable r.sql ∧ isMutatingSql r.sql = true

theorem Sound.not_select {r : WALRecord} (h : Sound r) : ¬ IsSelect r.sql := by
  intro ⟨sel, hparse⟩
  exact (isMutatingSql_iff hparse).mp h.2 sel rfl

/-- The records a snapshot at `lsn` does not cover. -/
def uncovered (lsn : UInt64) (recs : List WALRecord) : List WALRecord :=
  recs.filter fun r => lsn < r.lsn

/-! ## The files -/

/-- What the files of a data directory stand for. -/
structure DiskHolds (disk : Disk) (lsn : UInt64) (c : Catalog) (recs : List WALRecord) : Prop where
  snapshot : match disk.snapshot with
    | none => lsn = 0 ∧ c = ∅
    | some file => Covers file lsn c
  wal : disk.wal.getD [] = recs.flatMap WALRecord.encode
  sound : ∀ r ∈ recs, Sound r

/-- A database that has not opened its log yet. -/
def recovered (dataDir : Bytes) (ex : Executor) (lsn : UInt64) (n : Nat) : Database :=
  ⟨dataDir, ex, none, lsn, n⟩

theorem DiskHolds.readAll {disk : Disk} {lsn : UInt64} {c : Catalog} {recs : List WALRecord}
    (h : DiskHolds disk lsn c recs) : WALReader.readAll (disk.wal.getD []) = recs := by
  rw [h.wal]
  exact readAll_encode fun r hr => (h.sound r hr).1.short

theorem DiskHolds.loadSnapshot {disk : Disk} {lsn : UInt64} {c : Catalog}
    {recs : List WALRecord} (h : DiskHolds disk lsn c recs) (dataDir : Bytes) (now : Int64) :
    ∃ m, (Database.fresh dataDir).loadSnapshot now disk.snapshot
        = .ok (recovered dataDir ⟨m, Executor.new.cache⟩ lsn 0) ∧ Models m c := by
  have hsnap := h.snapshot
  cases hfile : disk.snapshot with
  | none =>
      rw [hfile] at hsnap
      obtain ⟨rfl, rfl⟩ := hsnap
      exact ⟨∅, rfl, models_empty⟩
  | some file =>
      rw [hfile] at hsnap
      obtain ⟨m, hload, hm⟩ := hsnap.2 now
      refine ⟨m, ?_, hm⟩
      have hunion : m ∪ (Database.fresh dataDir).executor.tables = m := Finmap.union_empty
      rw [Database.loadSnapshot, hload, Outcome.bind_ok]
      simp only [hunion]
      rfl

theorem DiskHolds.coveredBy {disk : Disk} {lsn : UInt64} {c : Catalog} {recs : List WALRecord}
    (h : DiskHolds disk lsn c recs) :
    coveredBy disk = lsn := by
  have hsnap := h.snapshot
  rw [Spec.coveredBy]
  cases hfile : disk.snapshot with
  | none =>
      rw [hfile] at hsnap
      exact hsnap.1.symm
  | some file =>
      rw [hfile] at hsnap
      obtain ⟨n, rest, hheader⟩ := hsnap.1
      simp only [hheader]

theorem DiskHolds.append {disk : Disk} {lsn : UInt64} {c : Catalog} {recs : List WALRecord}
    (h : DiskHolds disk lsn c recs) {r : WALRecord} (hr : Sound r) :
    DiskHolds { disk with wal := some (disk.wal.getD [] ++ r.encode) } lsn c (recs ++ [r]) := by
  refine ⟨h.snapshot, ?_, ?_⟩
  · rw [Option.getD_some, h.wal, List.flatMap_append, List.flatMap_singleton]
  · intro x hx
    rcases List.mem_append.mp hx with hx | hx
    · exact h.sound x hx
    · rw [List.mem_singleton.mp hx]
      exact hr

theorem DiskHolds.save {disk : Disk} {lsn lsn' : UInt64} {c c' : Catalog}
    {recs : List WALRecord} (h : DiskHolds disk lsn c recs) {file : Bytes}
    (hfile : Covers file lsn' c') :
    DiskHolds { disk with snapshot := some file } lsn' c' recs :=
  ⟨hfile, h.wal, h.sound⟩

theorem DiskHolds.truncate {disk : Disk} {lsn : UInt64} {c : Catalog} {recs : List WALRecord}
    (h : DiskHolds disk lsn c recs) : DiskHolds { disk with wal := some [] } lsn c [] :=
  ⟨h.snapshot, rfl, by simp⟩

/-! ## The steps of the calls -/

section Steps

variable {db : Database} {disk : Disk} {w : WALWriter} {sql : Bytes}

theorem log_mutating (hw : db.walWriter = some w) (hdir : db.dataDir ≠ [])
    (hmut : isMutatingSql sql = true) :
    db.log disk sql = ({ db with walWriter := some ⟨w.nextLsn + 1⟩ },
      { disk with wal := some (disk.wal.getD [] ++ (WALRecord.mk w.nextLsn sql).encode) }) := by
  have hp : db.persistent = true := by simp [Database.persistent, hdir]
  rw [Database.log, hw]
  simp only [hp, hmut, Bool.and_self, if_true]
  rfl

theorem log_other (hmut : isMutatingSql sql = false) : db.log disk sql = (db, disk) := by
  rw [Database.log]
  split
  · rfl
  · simp [hmut]

theorem log_frame (hw : db.walWriter = some w) (disk : Disk) (sql : Bytes) : ∃ w' wal,
    db.log disk sql = ({ db with walWriter := some w' }, { disk with wal := wal }) := by
  simp only [Database.log, hw]
  split
  · exact ⟨_, _, rfl⟩
  · exact ⟨w, disk.wal, by rw [← hw]⟩

theorem saveSnapshot_ok {now : Int64} {fault : Option Snapshot.SaveFault}
    {tables : List (Bytes × Table)} {lsn : UInt64} {after : Database × Disk}
    (h : db.saveSnapshot now fault tables lsn disk = .ok (.ok after)) : ∃ file,
      Snapshot.contents now tables lsn = .ok file ∧
      after = ({ db with snapshotLsn := lsn }, { disk with snapshot := some file }) := by
  obtain ⟨saved, hsave, h⟩ := Outcome.bind_eq_ok.mp h
  cases saved with
  | error e => exact absurd h (by simp)
  | ok file =>
      obtain rfl := Except.ok.inj (Except.ok.inj h)
      refine ⟨file, ?_, rfl⟩
      cases fault with
      | some f =>
          cases f with
          | openTemp => exact absurd hsave (by simp [Snapshot.save])
          | renameTemp =>
              obtain ⟨_, _, hsave⟩ := Outcome.bind_eq_ok.mp hsave
              exact absurd hsave (by simp)
      | none =>
          obtain ⟨_, hfile, hsave⟩ := Outcome.bind_eq_ok.mp hsave
          rw [hfile, Except.ok.inj (Except.ok.inj hsave)]

/-- A snapshot is taken whole or not at all. -/
theorem takeSnapshot_cases {now : Int64} {fault : Option Snapshot.SaveFault}
    {tables : List (Bytes × Table)} {after : Database × Disk} {e : Option Bytes}
    (hw : db.walWriter = some w)
    (h : db.takeSnapshot now fault tables disk = .ok (after, e)) :
    (e.isSome ∧ after = (db, disk)) ∨ (e = none ∧ ∃ file,
      Snapshot.contents now tables (w.nextLsn - 1) = .ok file ∧
      after = ({ db with snapshotLsn := w.nextLsn - 1 },
        { snapshot := some file, wal := some [] })) := by
  rw [Database.takeSnapshot] at h
  split at h
  · obtain ⟨saved, hsave, h⟩ := Outcome.bind_eq_ok.mp h
    cases saved with
    | error e =>
        obtain ⟨rfl, rfl⟩ := Prod.mk.inj (Except.ok.inj h)
        exact .inl ⟨rfl, rfl⟩
    | ok after' =>
        obtain ⟨file, hfile, rfl⟩ := saveSnapshot_ok hsave
        have hlsn : db.coveredLsn = w.nextLsn - 1 := by rw [Database.coveredLsn, hw]; rfl
        rw [hlsn] at hfile h
        obtain ⟨rfl, rfl⟩ := Prod.mk.inj (Except.ok.inj h)
        refine .inr ⟨rfl, file, hfile, ?_⟩
        rw [Database.truncateWal]
        simp only [hw]
        rfl
  · obtain ⟨rfl, rfl⟩ := Prod.mk.inj (Except.ok.inj h)
    exact .inl ⟨rfl, rfl⟩

end Steps

/-! The texts of the runs that are followed step by step: one table with one
row. -/

theorem loggable_create : Loggable (Bytes.lit "CREATE TABLE t (id INT)") := by decide +kernel

theorem loggable_insert : Loggable (Bytes.lit "INSERT INTO t VALUES (1)") := by decide +kernel

variable [FloatLib]

theorem insertTuples_schema {tuples : List (List Bytes)} {r r' : Rel} {ok : Bool}
    (h : r.insertTuples tuples = .ok (r', ok)) : r'.schema = r.schema := by
  induction tuples generalizing r with
  | nil =>
      obtain ⟨rfl, _⟩ := Prod.mk.inj (Except.ok.inj h)
      rfl
  | cons rowVals rest ih =>
      rw [Rel.insertTuples] at h
      split at h
      · obtain ⟨rfl, _⟩ := Prod.mk.inj (Except.ok.inj h)
        rfl
      · split at h
        · obtain ⟨rfl, _⟩ := Prod.mk.inj (Except.ok.inj h)
          rfl
        · obtain ⟨r₁, hpush, h⟩ := Outcome.bind_eq_ok.mp h
          obtain ⟨_, _, hr₁⟩ := Outcome.bind_eq_ok.mp hpush
          rw [ih h, ← Except.ok.inj hr₁]

/-- A text that fits the log brings in no name a snapshot cannot hold. -/
theorem Named.apply {c c' : Catalog} (h : Named c) {sql : Bytes} {ok : Bool}
    (hlen : sql.length ≤ WALRecord.maxPayload) (hrun : c.apply sql = .ok (c', ok)) :
    Named c' := by
  obtain ⟨parsed, hparse, hrun⟩ := Outcome.bind_eq_ok.mp hrun
  cases parsed with
  | error e =>
      obtain ⟨rfl, _⟩ := Prod.mk.inj (Except.ok.inj hrun)
      exact h
  | ok stmt =>
      cases stmt with
      | createTable stmt =>
          obtain ⟨hname, hcols⟩ := createTable_names hparse
          rcases create_ok hrun with ⟨rfl, _⟩ | ⟨schema, hschema, rfl⟩
          · exact h
          · refine h.insert ?_ (buildSchema_named hschema (by simp [Schema.empty]) ?_)
            · rw [Bytes.toUpper_length]
              exact Nat.le_trans hname hlen
            · exact fun col hcol => Nat.le_trans (hcols col hcol) hlen
      | insert stmt =>
          rcases insert_ok hrun with ⟨rfl, _⟩ | ⟨r, r', hr, hins, rfl⟩
          · exact h
          · obtain ⟨hname, hcols⟩ := h _ _ hr
            exact h.insert hname (by rw [insertTuples_schema hins]; exact hcols)
      | select stmt =>
          obtain ⟨rfl, _⟩ := Prod.mk.inj (Except.ok.inj hrun)
          exact h

theorem execute_ok {db : Database} {disk : Disk} {after : Database × Disk} {now : Int64}
    {sql : Bytes} {r : QueryResult} (h : db.execute now disk sql = .ok (after, r)) : ∃ ex,
      (db.log disk sql).1.executor.executeSql now sql = .ok (ex, r) ∧
      after = ({ (db.log disk sql).1 with executor := ex }, (db.log disk sql).2) := by
  rw [Database.execute] at h
  generalize db.log disk sql = logged at h ⊢
  obtain ⟨⟨db', r'⟩, hdb, h⟩ := Outcome.bind_eq_ok.mp h
  obtain ⟨⟨ex, r''⟩, hex, hdb⟩ := Outcome.bind_eq_ok.mp hdb
  obtain ⟨rfl, rfl⟩ := Prod.mk.inj (Except.ok.inj hdb)
  obtain ⟨rfl, rfl⟩ := Prod.mk.inj (Except.ok.inj h)
  exact ⟨ex, hex, rfl⟩

/-- A text the classifier lets pass does nothing to a catalog. -/
theorem apply_other {c c' : Catalog} {sql : Bytes} {ok : Bool}
    (hmut : isMutatingSql sql = false) (h : c.apply sql = .ok (c', ok)) : c' = c := by
  obtain ⟨parsed, hparse, h⟩ := Outcome.bind_eq_ok.mp h
  cases parsed with
  | error e => exact (Prod.mk.inj (Except.ok.inj h)).1.symm
  | ok stmt =>
      have hiff := isMutatingSql_iff hparse
      rw [hmut] at hiff
      cases stmt with
      | createTable stmt => exact absurd (hiff.mpr (by simp)) (by simp)
      | insert stmt => exact absurd (hiff.mpr (by simp)) (by simp)
      | select stmt => exact (Prod.mk.inj (Except.ok.inj h)).1.symm

/-! ## Replay -/

/-- Replaying a log is executing its records, with the answers dropped. -/
theorem replayRecords_eq (now : Int64) (db : Database) (n : Nat) (recs : List WALRecord) :
    WALReader.replayRecords (Database.replayRecord now) db n recs
      = (do
        let (db, _) ← replayAnswers now db recs
        .ok (db, n + recs.length)) := by
  induction recs generalizing db n with
  | nil => rfl
  | cons rec recs ih =>
      rw [WALReader.replayRecords, Database.replayRecord, replayAnswers]
      have hlen : n + (rec :: recs).length = n + 1 + recs.length := by
        rw [List.length_cons]
        omega
      split
      · simp only [Outcome.bind_ok, if_true, ih, hlen]
      · cases db.executor.executeSql now rec.sql with
        | error f => rfl
        | ok x =>
            simp only [Outcome.bind_ok, if_true, ih, hlen]
            cases replayAnswers now { db with executor := x.1 } recs with
            | error f => rfl
            | ok y => rfl

/-- Replay does to the tables what the uncovered records do to the catalog. -/
theorem replayAnswers_models (now : Int64) {db : Database} {recs : List WALRecord}
    {c c' : Catalog} {oks : List Bool} (hm : Models db.executor.tables c)
    (hidle : db.executor.cache.tableEntries = ∅) (hsound : ∀ r ∈ recs, Sound r)
    (happly : c.applyAll ((uncovered db.snapshotLsn recs).map (·.sql)) = .ok (c', oks)) :
    ∃ ex, replayAnswers now db recs
        = .ok ({ db with executor := ex },
          ((uncovered db.snapshotLsn recs).map (·.lsn)).zip oks) ∧
      Models ex.tables c' := by
  induction recs generalizing db c oks with
  | nil =>
      obtain ⟨rfl, rfl⟩ := Prod.mk.inj (Except.ok.inj happly)
      exact ⟨db.executor, rfl, hm⟩
  | cons rec recs ih =>
      have hrest : ∀ r ∈ recs, Sound r := fun r hr => hsound r (by simp [hr])
      rw [replayAnswers]
      by_cases hlsn : rec.lsn ≤ db.snapshotLsn
      · have hskip : uncovered db.snapshotLsn (rec :: recs) = uncovered db.snapshotLsn recs :=
          List.filter_cons_of_neg (by simpa using hlsn)
        rw [hskip] at happly ⊢
        rw [if_pos hlsn]
        exact ih hm hidle hrest happly
      · have hkeep : uncovered db.snapshotLsn (rec :: recs)
            = rec :: uncovered db.snapshotLsn recs :=
          List.filter_cons_of_pos (by simpa using hlsn)
        rw [hkeep, List.map_cons] at happly
        obtain ⟨c₁, ok, oks', happ, hrun, rfl⟩ := Actions.runAll_cons_ok happly
        have hrec := hsound rec (by simp)
        obtain ⟨⟨ex₁, r⟩, hex, hm₁, hok, hcache⟩ :=
          (executeSql_idle hm hidle hrec.1.fits hrec.not_select).ok_right happ
        have hidle₁ : ex₁.cache.tableEntries = ∅ := by rw [hcache]; exact hidle
        have hm₂ : Models ({ db with executor := ex₁ } : Database).executor.tables c₁ := hm₁
        obtain ⟨ex, hans, hm'⟩ := ih hm₂ hidle₁ hrest hrun
        refine ⟨ex, ?_, hm'⟩
        rw [if_neg hlsn, hex, hkeep]
        simp only [Outcome.bind_ok, hans, List.map_cons, List.zip_cons_cons]
        rw [show r.success = ok from hok]

/-! ## Recovery -/

/-- Recovery does what the uncovered records do to the catalog of the
snapshot. -/
theorem DiskHolds.recover {disk : Disk} {lsn : UInt64} {c c' : Catalog} {recs : List WALRecord}
    {oks : List Bool} (h : DiskHolds disk lsn c recs)
    (happly : c.applyAll ((uncovered lsn recs).map (·.sql)) = .ok (c', oks)) (dataDir : Bytes)
    (now : Int64) : ∃ ex n, (Database.fresh dataDir).recover now disk
        = .ok (recovered dataDir ex lsn n) ∧ Models ex.tables c' := by
  obtain ⟨m, hload, hm⟩ := h.loadSnapshot dataDir now
  have hm₁ : Models (recovered dataDir ⟨m, Executor.new.cache⟩ lsn 0).executor.tables c := hm
  obtain ⟨ex, hreplay, hm'⟩ := replayAnswers_models now hm₁ rfl h.sound happly
  have hread := h.readAll
  rw [Database.recover, hload, Outcome.bind_ok]
  cases hwal : disk.wal with
  | none =>
      -- no log, no records
      rw [hwal, Option.getD_none, readAll_nil] at hread
      subst hread
      obtain ⟨rfl, _⟩ := Prod.mk.inj (Except.ok.inj happly)
      exact ⟨_, 0, rfl, hm⟩
  | some file =>
      rw [hwal, Option.getD_some] at hread
      refine ⟨ex, recs.length, ?_, hm'⟩
      rw [Database.replayWal, WALReader.replay, hread, replayRecords_eq, hreplay]
      simp only [Outcome.bind_ok, Nat.zero_add]
      rfl

end FlexQL.Proofs
