import FlexQL.Proofs.Database

/-!
# No statement is lost between two restarts

The invariant of a run is that the log since the last snapshot, applied to
what the snapshot holds, is what the tables store. A call keeps it, whatever
the sequence numbers are. They matter at a restart: recovery passes over the
records the snapshot claims to cover. Within one lifetime the numbers grow,
and it passes over nothing it needs.
-/

namespace FlexQL.Proofs

open Lib FlexQL.Ref FlexQL.Spec

/-! ## Sequence numbers -/

/-- The sequence numbers of the log come after the snapshot's. -/
structure Ordered (w : WALWriter) (lsn : UInt64) (recs : List WALRecord) : Prop where
  next : lsn < w.nextLsn
  recs : ∀ r ∈ recs, lsn < r.lsn ∧ r.lsn < w.nextLsn

section Ordered

variable {w : WALWriter} {lsn : UInt64} {recs : List WALRecord}

theorem Ordered.append (h : Ordered w lsn recs) (hw : w.nextLsn.toNat + 1 < 2 ^ 64)
    (sql : Bytes) : Ordered ⟨w.nextLsn + 1⟩ lsn (recs ++ [⟨w.nextLsn, sql⟩]) := by
  have hlt : w.nextLsn < w.nextLsn + 1 := by
    rw [UInt64.lt_iff_toNat_lt, UInt64.toNat_add, UInt64.toNat_one, Nat.mod_eq_of_lt hw]
    exact Nat.lt_succ_self _
  refine ⟨UInt64.lt_trans h.next hlt, fun r hr => ?_⟩
  rcases List.mem_append.mp hr with hr | hr
  · exact ⟨(h.recs r hr).1, UInt64.lt_trans (h.recs r hr).2 hlt⟩
  · rw [List.mem_singleton.mp hr]
    exact ⟨h.next, hlt⟩

/-- The number a snapshot is given covers the whole log. -/
theorem Ordered.covered (h : Ordered w lsn recs) :
    w.nextLsn - 1 < w.nextLsn ∧ ∀ r ∈ recs, r.lsn ≤ w.nextLsn - 1 := by
  have hnext := UInt64.lt_iff_toNat_lt.mp h.next
  have hsub : (w.nextLsn - 1).toNat = w.nextLsn.toNat - 1 := by
    rw [UInt64.toNat_sub_of_le _ _ (by rw [UInt64.le_iff_toNat_le, UInt64.toNat_one]; omega),
      UInt64.toNat_one]
  refine ⟨by rw [UInt64.lt_iff_toNat_lt, hsub]; omega, fun r hr => ?_⟩
  have hr := UInt64.lt_iff_toNat_lt.mp (h.recs r hr).2
  rw [UInt64.le_iff_toNat_le, hsub]
  omega

end Ordered

/-! ## The invariant -/

section Durable

variable [FloatLib]

/-- The snapshot holds `c₀` and covers `lsn`, the log holds `recs`, and together
they are the catalog `c` the tables store. -/
structure Durable (dataDir : Bytes) (s : Database × Disk) (w : WALWriter) (lsn : UInt64)
    (c₀ : Catalog) (recs : List WALRecord) (c : Catalog) : Prop where
  dir : s.1.dataDir = dataDir
  writer : s.1.walWriter = some w
  disk : DiskHolds s.2 lsn c₀ recs
  history : ∃ oks, c₀.applyAll (recs.map (·.sql)) = .ok (c, oks)
  tables : Models s.1.executor.tables c
  named : Named c

variable {dataDir : Bytes} {s s' : Database × Disk} {w : WALWriter} {lsn : UInt64}
  {c₀ c : Catalog} {recs : List WALRecord}

theorem Durable.contents (h : Durable dataDir s w lsn c₀ recs c) (hw : Within s.1)
    {now : Int64} {tables : List (Bytes × Table)} (hs : Snapshots s.1 now tables)
    (lsn' : UInt64) :
    ∃ file, Snapshot.contents now tables lsn' = .ok file ∧ Covers file lsn' c := by
  refine contents_covers h.tables h.named hs.order hs.live ?_ hw.rows lsn'
  rw [Enumerates.length_eq hs.order]
  exact hw.tables

/-- A statement that is executed goes to the log if it does anything. -/
theorem Durable.execute (h : Durable dataDir s w lsn c₀ recs c) (hdir : dataDir ≠ [])
    {sql : Bytes} (hlog : Loggable sql) {now : Int64} {r : QueryResult}
    (hrun : s.1.execute now s.2 sql = .ok (s', r)) :
    (isMutatingSql sql = false ∧ Durable dataDir s' w lsn c₀ recs c) ∨
      ∃ c', Durable dataDir s' ⟨w.nextLsn + 1⟩ lsn c₀ (recs ++ [⟨w.nextLsn, sql⟩]) c' := by
  obtain ⟨ex, hex, rfl⟩ := execute_ok hrun
  cases hmut : isMutatingSql sql with
  | false =>
      rw [log_other hmut] at hex ⊢
      obtain ⟨c', ok, happ, hm, _⟩ := executeSql_models h.tables hlog.fits hex
      obtain rfl := apply_other hmut happ
      exact .inl ⟨rfl, h.dir, h.writer, h.disk, h.history, hm, h.named⟩
  | true =>
      rw [log_mutating h.writer (by rw [h.dir]; exact hdir) hmut] at hex ⊢
      obtain ⟨c', ok, happ, hm, _⟩ := executeSql_models h.tables hlog.fits hex
      obtain ⟨oks, hist⟩ := h.history
      refine .inr ⟨c', h.dir, rfl, h.disk.append ⟨hlog, hmut⟩, ⟨oks ++ [ok], ?_⟩, hm,
        h.named.apply hlog.short happ⟩
      rw [List.map_append]
      exact Actions.runAll_append hist (Actions.runAll_single happ)

/-- A snapshot empties the log. -/
theorem Durable.snapshot (h : Durable dataDir s w lsn c₀ recs c) (hw : Within s.1)
    {now : Int64} {fault : Option Snapshot.SaveFault} {tables : List (Bytes × Table)}
    {e : Option Bytes} (hs : Snapshots s.1 now tables)
    (hrun : s.1.takeSnapshot now fault tables s.2 = .ok (s', e)) :
    s' = s ∨ Durable dataDir s' w (w.nextLsn - 1) c [] c := by
  rcases takeSnapshot_cases h.writer hrun with ⟨-, hsame⟩ | ⟨-, file, hfile, rfl⟩
  · exact .inl hsame
  · obtain ⟨file', hfile', hcov⟩ := h.contents hw hs (w.nextLsn - 1)
    obtain rfl := Except.ok.inj (hfile.symm.trans hfile')
    exact .inr ⟨h.dir, h.writer, (h.disk.save hcov).truncate, ⟨[], rfl⟩, h.tables, h.named⟩

/-- A restart from a disk none of whose records is passed over. -/
theorem Durable.recover (h : Durable dataDir s w lsn c₀ recs c)
    (hall : ∀ r ∈ recs, lsn < r.lsn) (now : Int64) :
    ∃ ex n, (Database.fresh dataDir).recover now s.2 = .ok (recovered dataDir ex lsn n) ∧
      Models ex.tables c := by
  have hunc : uncovered lsn recs = recs := List.filter_eq_self.mpr (by simpa using hall)
  obtain ⟨oks, hist⟩ := h.history
  rw [← hunc] at hist
  exact h.disk.recover hist dataDir now

/-- Opening a database on such a disk. -/
theorem durable_new {disk : Disk} (hdir : dataDir ≠ []) (hdisk : DiskHolds disk lsn c₀ recs)
    (hall : ∀ r ∈ recs, lsn < r.lsn) {oks : List Bool}
    (hist : c₀.applyAll (recs.map (·.sql)) = .ok (c, oks)) (hnamed : Named c) {now : Int64}
    (h : Database.new dataDir now disk = .ok s) :
    Durable dataDir s (WALWriter.new disk.wal).1 lsn c₀ recs c := by
  have hunc : uncovered lsn recs = recs := List.filter_eq_self.mpr (by simpa using hall)
  obtain ⟨ex, n, hrec, hm⟩ := hdisk.recover (hunc.symm ▸ hist) dataDir now
  have hp : (Database.fresh dataDir).persistent = true := by
    simp [Database.persistent, Database.fresh, hdir]
  rw [Database.new, if_pos hp, hrec, Outcome.bind_ok] at h
  obtain rfl := Except.ok.inj h
  exact ⟨rfl, rfl, ⟨hdisk.snapshot, hdisk.wal, hdisk.sound⟩, ⟨oks, hist⟩, hm, hnamed⟩

theorem durable_opened (hdir : dataDir ≠ []) {now : Int64}
    (h : Database.new dataDir now Disk.empty = .ok s) :
    Durable dataDir s ⟨1⟩ 0 ∅ [] ∅ := by
  have hw : (WALWriter.new none).1 = ⟨1⟩ := by
    rw [WALWriter.new]
    simp only [Option.getD_none, readAll_nil]
    rfl
  have hempty : DiskHolds Disk.empty 0 ∅ [] := ⟨⟨rfl, rfl⟩, rfl, by simp⟩
  exact hw ▸ durable_new hdir hempty (by simp) rfl named_empty h

/-! ## One lifetime -/

theorem lifetime_durable (h : Lifetime dataDir s) : dataDir ≠ [] ∧ ∃ w lsn c₀ recs c,
    Durable dataDir s w lsn c₀ recs c ∧ Ordered w lsn recs := by
  induction h with
  | opened hdir hnew =>
      exact ⟨hdir, _, _, _, _, _, durable_opened hdir hnew, by decide, by simp⟩
  | call _ hcall ih =>
      obtain ⟨hdir, w, lsn, c₀, recs, c, hd, ho⟩ := ih
      refine ⟨hdir, ?_⟩
      cases hcall with
      | execute hw hlog hrun =>
          rcases hd.execute hdir hlog hrun with ⟨_, hd'⟩ | ⟨c', hd'⟩
          · exact ⟨w, lsn, c₀, recs, c, hd', ho⟩
          · exact ⟨_, _, _, _, _, hd', ho.append (hw.lsn w hd.writer) _⟩
      | snapshot hw hs hrun =>
          rcases hd.snapshot hw hs hrun with rfl | hd'
          · exact ⟨w, lsn, c₀, recs, c, hd, ho⟩
          · exact ⟨_, _, _, _, _, hd', ho.covered.1, by simp⟩

/-- A crash at any point of a lifetime leaves a disk from which recovery
rebuilds the tables, and no statement that could change them stays out of
the log. -/
theorem recover_rebuilds_tables (h : Lifetime dataDir s) {disk : Disk} (hcrash : Crash s disk)
    (now : Int64) :
    (∃ db, (Database.fresh dataDir).recover now disk = .ok db ∧
      SameTables s.1.executor.tables db.executor.tables) ∧
    ∀ sql stmt, parseSql sql = .ok (.ok stmt) → (∀ sel, stmt ≠ .select sel) →
      isMutatingSql sql = true ∧ ∃ lsn, (s.1.log s.2 sql).2.wal
        = some (s.2.wal.getD [] ++ (WALRecord.mk lsn sql).encode) := by
  obtain ⟨hdir, w, lsn, c₀, recs, c, hd, ho⟩ := lifetime_durable h
  constructor
  · cases hcrash with
    | between db disk =>
        obtain ⟨ex, n, hrec, hm⟩ := hd.recover (fun r hr => (ho.recs r hr).1) now
        exact ⟨_, hrec, hd.tables.same hm⟩
    | @renamed db disk after _ tables hw hs hsave =>
        obtain ⟨file, hfile, rfl⟩ := saveSnapshot_ok hsave
        have hlsn : db.coveredLsn = w.nextLsn - 1 := by
          have hwriter : db.walWriter = some w := hd.writer
          rw [Database.coveredLsn, hwriter]
          rfl
        rw [hlsn] at hfile
        obtain ⟨file', hfile', hcov⟩ := hd.contents hw hs (w.nextLsn - 1)
        obtain rfl := Except.ok.inj (hfile.symm.trans hfile')
        -- the new snapshot covers every record that is still in the log
        have hnone : uncovered (w.nextLsn - 1) recs = [] := by
          refine List.filter_eq_nil_iff.mpr fun r hr => ?_
          simpa using ho.covered.2 r hr
        have hist : c.applyAll ((uncovered (w.nextLsn - 1) recs).map (·.sql)) = .ok (c, []) := by
          rw [hnone]
          rfl
        obtain ⟨ex, n, hrec, hm⟩ := (hd.disk.save hcov).recover hist dataDir now
        exact ⟨_, hrec, hd.tables.same hm⟩
  · intro sql stmt hparse hsel
    have hmut := (isMutatingSql_iff hparse).mpr hsel
    refine ⟨hmut, w.nextLsn, ?_⟩
    rw [log_mutating hd.writer (by rw [hd.dir]; exact hdir) hmut]

end Durable

section Runs

attribute [local instance] noDoubles

theorem recover_rebuilds_inserted_row : ∃ s db, Lifetime (Bytes.lit "d") s ∧
    (s.1.executor.tables.lookup (Bytes.lit "T")).map (·.rowCount) = some 1 ∧
    (Database.fresh (Bytes.lit "d")).recover 0 s.2 = .ok db ∧
    SameTables s.1.executor.tables db.executor.tables := by
  have hrun : (do
      let s₀ ← Database.new (Bytes.lit "d") 0 Disk.empty
      let (s₁, _) ← s₀.1.execute 0 s₀.2 (Bytes.lit "CREATE TABLE t (id INT)")
      let (s₂, _) ← s₁.1.execute 0 s₁.2 (Bytes.lit "INSERT INTO t VALUES (1)")
      .ok (decide (Within s₀.1 ∧ Within s₁.1),
        (s₂.1.executor.tables.lookup (Bytes.lit "T")).map (·.rowCount)) : Outcome _)
        = .ok (true, some 1) := by decide +kernel
  obtain ⟨s₀, hopen, hrun⟩ := Outcome.bind_eq_ok.mp hrun
  obtain ⟨⟨s₁, r₁⟩, hcreate, hrun⟩ := Outcome.bind_eq_ok.mp hrun
  obtain ⟨⟨s₂, r₂⟩, hinsert, hrun⟩ := Outcome.bind_eq_ok.mp hrun
  simp only [Except.ok.injEq, Prod.mk.injEq, decide_eq_true_eq] at hrun
  obtain ⟨⟨hw₀, hw₁⟩, hcount⟩ := hrun
  have hlife : Lifetime (Bytes.lit "d") s₂ :=
    ((Lifetime.opened (by decide) hopen).call (.execute hw₀ loggable_create hcreate)).call
      (.execute hw₁ loggable_insert hinsert)
  obtain ⟨db, hrec, hsame⟩ := (recover_rebuilds_tables hlife (.between s₂.1 s₂.2) 0).1
  exact ⟨s₂, db, hlife, hcount, hrec, hsame⟩

end Runs

/-! ## Any number of lifetimes -/

section Durable

variable [FloatLib] {dataDir : Bytes} {s : Database × Disk} {w : WALWriter} {lsn : UInt64}
  {c₀ c : Catalog} {recs : List WALRecord}

/-- What the end of a lifetime leaves on the disk. -/
theorem Durable.ends (h : Durable dataDir s w lsn c₀ recs c) {disk : Disk} (hend : Ends s disk) :
    ∃ lsn c₀ recs oks, DiskHolds disk lsn c₀ recs ∧
      c₀.applyAll (recs.map (·.sql)) = .ok (c, oks) := by
  cases hend with
  | crash db disk =>
      obtain ⟨oks, hist⟩ := h.history
      exact ⟨lsn, c₀, recs, oks, h.disk, hist⟩
  | shutdown hw hs hrun =>
      rcases h.snapshot hw hs hrun with hsame | h'
      · obtain ⟨oks, hist⟩ := h.history
        exact ⟨lsn, c₀, recs, oks, hsame ▸ h.disk, hist⟩
      · exact ⟨_, c, [], [], h'.disk, rfl⟩

theorem lifetimes_durable (h : Lifetimes dataDir s) : dataDir ≠ [] ∧ ∃ w lsn c₀ recs c,
    Durable dataDir s w lsn c₀ recs c := by
  induction h with
  | opened hdir hnew => exact ⟨hdir, _, _, _, _, _, durable_opened hdir hnew⟩
  | call _ hcall ih =>
      obtain ⟨hdir, w, lsn, c₀, recs, c, hd⟩ := ih
      refine ⟨hdir, ?_⟩
      cases hcall with
      | execute _ hlog hrun =>
          rcases hd.execute hdir hlog hrun with ⟨_, hd'⟩ | ⟨c', hd'⟩
          · exact ⟨w, lsn, c₀, recs, c, hd'⟩
          · exact ⟨_, _, _, _, _, hd'⟩
      | snapshot hw hs hrun =>
          rcases hd.snapshot hw hs hrun with rfl | hd'
          · exact ⟨w, lsn, c₀, recs, c, hd⟩
          · exact ⟨_, _, _, _, _, hd'⟩
  | restart _ hend hunc hnew ih =>
      obtain ⟨hdir, w, lsn, c₀, recs, c, hd⟩ := ih
      obtain ⟨lsn', c₀', recs', oks, hdisk, hist⟩ := hd.ends hend
      rw [Uncovered, hdisk.readAll, hdisk.coveredBy] at hunc
      exact ⟨hdir, _, _, _, _, _, durable_new hdir hdisk hunc hist hd.named hnew⟩

/-- After every lifetime that leaves an uncovered log behind, recovery
rebuilds the tables. -/
theorem restart_rebuilds_tables (h : Lifetimes dataDir s) {disk : Disk} (hend : Ends s disk)
    (hunc : Uncovered disk) (now : Int64) :
    ∃ db, (Database.fresh dataDir).recover now disk = .ok db ∧
      SameTables s.1.executor.tables db.executor.tables := by
  obtain ⟨_, w, lsn, c₀, recs, c, hd⟩ := lifetimes_durable h
  obtain ⟨lsn', c₀', recs', oks, hdisk, hist⟩ := hd.ends hend
  rw [Uncovered, hdisk.readAll, hdisk.coveredBy] at hunc
  have hall : uncovered lsn' recs' = recs' := List.filter_eq_self.mpr (by simpa using hunc)
  obtain ⟨ex, n, hrec, hm⟩ := hdisk.recover (hall.symm ▸ hist) dataDir now
  exact ⟨_, hrec, hd.tables.same hm⟩

end Durable

/-! ## Two runs -/

section Runs

attribute [local instance] noDoubles

theorem not_sameTables {m m' : Finmap fun _ : Bytes => Table} {name : Bytes} {n n' : UInt64}
    (h : (m.lookup name).map (·.rowCount) = some n)
    (h' : (m'.lookup name).map (·.rowCount) = some n') (hne : n ≠ n') : ¬ SameTables m m' := by
  intro hsame
  have hrel := hsame name
  obtain ⟨t, ht, hn⟩ := Option.map_eq_some_iff.mp h
  obtain ⟨t', ht', hn'⟩ := Option.map_eq_some_iff.mp h'
  rw [ht, ht'] at hrel
  cases hrel with
  | some hrel => exact hne (by rw [← hn, ← hn', hrel.count])

/-- A table is created and the database shut down and opened again; then a row
goes in. -/
theorem reopened_run : ∃ s s' r db, Lifetimes (Bytes.lit "d") s ∧ Uncovered s.2 ∧ Within s.1 ∧
    s.1.execute 0 s.2 (Bytes.lit "INSERT INTO t VALUES (1)") = .ok (s', r) ∧ r.success = true ∧
    (Database.fresh (Bytes.lit "d")).recover 0 s'.2 = .ok db ∧
    (s'.1.executor.tables.lookup (Bytes.lit "T")).map (·.rowCount) = some 1 ∧
    (db.executor.tables.lookup (Bytes.lit "T")).map (·.rowCount) = some 0 := by
  have hrun : (do
      let s₀ ← Database.new (Bytes.lit "d") 0 Disk.empty
      let (s₁, _) ← s₀.1.execute 0 s₀.2 (Bytes.lit "CREATE TABLE t (id INT)")
      let t ← Executor.cell (s₁.1.executor.tables.lookup (Bytes.lit "T")).toList 0
      let (s₂, _) ← s₁.1.takeSnapshot 0 none [(Bytes.lit "T", t)] s₁.2
      let s₃ ← Database.new (Bytes.lit "d") 0 s₂.2
      let (s₄, r) ← s₃.1.execute 0 s₃.2 (Bytes.lit "INSERT INTO t VALUES (1)")
      let db ← (Database.fresh (Bytes.lit "d")).recover 0 s₄.2
      .ok (decide (Within s₀.1 ∧ Within s₁.1 ∧ s₁.1.executor.tables.keys.card = 1 ∧
          t.rows.isEmpty ∧ Uncovered s₂.2 ∧ Uncovered s₃.2 ∧ Within s₃.1),
        r.success, (s₄.1.executor.tables.lookup (Bytes.lit "T")).map (·.rowCount),
        (db.executor.tables.lookup (Bytes.lit "T")).map (·.rowCount)) : Outcome _)
        = .ok (true, true, some 1, some 0) := by decide +kernel
  obtain ⟨s₀, hopen, hrun⟩ := Outcome.bind_eq_ok.mp hrun
  obtain ⟨⟨s₁, r₁⟩, hcreate, hrun⟩ := Outcome.bind_eq_ok.mp hrun
  obtain ⟨t, ht, hrun⟩ := Outcome.bind_eq_ok.mp hrun
  obtain ⟨⟨s₂, e⟩, hshut, hrun⟩ := Outcome.bind_eq_ok.mp hrun
  obtain ⟨s₃, hreopen, hrun⟩ := Outcome.bind_eq_ok.mp hrun
  obtain ⟨⟨s₄, r⟩, hinsert, hrun⟩ := Outcome.bind_eq_ok.mp hrun
  obtain ⟨db, hrec, hrun⟩ := Outcome.bind_eq_ok.mp hrun
  simp only [Except.ok.injEq, Prod.mk.injEq, decide_eq_true_eq] at hrun
  obtain ⟨⟨hw₀, hw₁, hcard, hrows, hunc₂, hunc₃, hw₃⟩, hr, hcount, hcount'⟩ := hrun
  have hlook := cell_toList ht
  have hlive : Unexpired 0 t := by
    intro p hp
    rw [List.isEmpty_iff.mp hrows] at hp
    exact absurd hp (by simp)
  have hsnap : Snapshots s₁.1 0 [(Bytes.lit "T", t)] :=
    ⟨enumerates_single hcard hlook, by simpa using hlive⟩
  have hlife : Lifetimes (Bytes.lit "d") s₁ :=
    (Lifetimes.opened (by decide) hopen).call (.execute hw₀ loggable_create hcreate)
  exact ⟨s₃, s₄, r, db, hlife.restart (.shutdown hw₁ hsnap hshut) hunc₂ hreopen, hunc₃, hw₃,
    hinsert, hr, hrec, hcount, hcount'⟩

theorem restart_rebuilds_reopened : ∃ s db, Lifetimes (Bytes.lit "d") s ∧ Uncovered s.2 ∧
    (Database.fresh (Bytes.lit "d")).recover 0 s.2 = .ok db ∧
    SameTables s.1.executor.tables db.executor.tables := by
  obtain ⟨s, _, _, _, hlife, hunc, _⟩ := reopened_run
  obtain ⟨db, hrec, hsame⟩ := restart_rebuilds_tables hlife (.crash s.1 s.2) hunc 0
  exact ⟨s, db, hlife, hunc, hrec, hsame⟩

/-- The log was emptied by the shutdown, so its numbers start over at 1, which
the snapshot covers: the row that went in is not replayed. -/
theorem restart_loses_insert : ∃ s db, Lifetimes (Bytes.lit "d") s ∧ Ends s s.2 ∧
    (Database.fresh (Bytes.lit "d")).recover 0 s.2 = .ok db ∧
    (s.1.executor.tables.lookup (Bytes.lit "T")).map (·.rowCount) = some 1 ∧
    (db.executor.tables.lookup (Bytes.lit "T")).map (·.rowCount) = some 0 ∧
    ¬ SameTables s.1.executor.tables db.executor.tables := by
  obtain ⟨s, s', r, db, hlife, _, hw, hinsert, _, hrec, hcount, hcount'⟩ := reopened_run
  exact ⟨s', db, hlife.call (.execute hw loggable_insert hinsert), .crash s'.1 s'.2, hrec, hcount,
    hcount', not_sameTables hcount hcount' (by decide)⟩

end Runs

end FlexQL.Proofs
