import FlexQL.Proofs.Durability
import FlexQL.Proofs.Truncation
import FlexQL.Spec.Checkpoint

/-!
# Checkpoints on a disk that fills up

`save` writes through a stream and never asks it whether the bytes arrived. If
the stream has room for the whole snapshot, a checkpoint does its work. If it
has not, the file that is renamed over the old snapshot is the beginning of
one, which does not load; the log is truncated all the same, and the answer is
that all is well.

A snapshot that does not load fares no better. Recovery passes over it, and
the next snapshot, at the latest that of the destructor, takes its place.
-/

namespace FlexQL.Proofs

open Lib FlexQL.Ref FlexQL.Spec

/-! ## The stream -/

theorem foldlM_write {now : Int64} (room : Nat) (tables : List (Bytes × Table)) (w : Bytes) :
    tables.foldlM (Snapshot.saveTableInto now) (OutStream.after room w) =
      (do
        let parts ← tables.mapM (Snapshot.saveTable now)
        .ok (OutStream.after room (w ++ parts.flatten)) : Outcome OutStream) := by
  induction tables generalizing w with
  | nil =>
      simp only [List.foldlM_nil, List.mapM_nil, pure, Except.pure, Outcome.bind_ok,
        List.flatten_nil, List.append_nil]
  | cons q tables ih =>
      rw [List.foldlM_cons, List.mapM_cons, Snapshot.saveTableInto]
      cases hq : Snapshot.saveTable now q with
      | error f => simp only [Outcome.bind_error]
      | ok part =>
          simp only [Outcome.bind_ok, OutStream.write_after, ih]
          cases htables : tables.mapM (Snapshot.saveTable now) with
          | error f => simp only [Outcome.bind_error]
          | ok parts =>
              simp only [Outcome.bind_ok, pure, Except.pure, List.flatten_cons,
                List.append_assoc]

/-- What gets into the file is the beginning of what is written. -/
theorem saveInto_eq (room : Nat) (now : Int64) (tables : List (Bytes × Table)) (lsn : UInt64) :
    Snapshot.saveInto room now tables lsn = (do
      let file ← Snapshot.contents now tables lsn
      .ok (.ok (file.take room))) := by
  rw [Snapshot.saveInto, Snapshot.contents, OutStream.opened_eq, OutStream.write_after,
    foldlM_write, List.nil_append]
  generalize Snapshot.writeHeader lsn tables.length = w
  cases tables.mapM (Snapshot.saveTable now) with
  | error f => rfl
  | ok parts => rfl

/-! ## The size of a snapshot -/

theorem writeStr_length {s : Bytes} (h : s.length ≤ Snapshot.maxStr) :
    (Snapshot.writeStr s).length = 4 + s.length := by
  have hlt : s.length < 2 ^ 32 := Nat.lt_of_le_of_lt h (by decide)
  rw [Snapshot.writeStr, Nat.mod_eq_of_lt hlt, List.take_length, List.length_append,
    Bytes.le_length]

theorem writeValue_length {v : Value} (h : Writes v) :
    (Snapshot.writeValue v).length = valueSize v := by
  rw [Snapshot.writeValue, List.length_append, Bytes.le_length]
  cases v with
  | varchar s =>
      have hs : s.length ≤ Snapshot.maxStr := h.short rfl
      simp only [Value.type, Value.strVal, valueSize, writeStr_length hs]
      omega
  | int n => simp [Value.type, valueSize]
  | decimal bits => simp [Value.type, valueSize]
  | datetime n => simp [Value.type, valueSize]
  | unknown code => simp [Value.type, valueSize]

theorem writeRow_length {row : Row} (h : ∀ v ∈ row, Writes v) :
    (Snapshot.writeRow row).length = 4 + (row.map valueSize).sum := by
  rw [Snapshot.writeRow, List.length_append, Bytes.le_length, List.length_flatMap,
    List.map_congr_left fun v hv => writeValue_length (h v hv)]

theorem writeTable_length {name : Bytes} {schema : Schema} {rows : List Row}
    (h : Printed name schema.columns rows) :
    (Snapshot.writeTable name schema rows).length = tableSize name schema.columns rows := by
  have hcol : ∀ c ∈ schema.columns, (Snapshot.writeColumn c).length = c.name.length + 7 := by
    intro c hc
    simp only [Snapshot.writeColumn, List.length_append, Bytes.le_length,
      writeStr_length (h.columns c hc).1]
    omega
  simp only [Snapshot.writeTable, List.length_append, Bytes.le_length, List.length_flatMap,
    writeStr_length h.name, List.map_congr_left hcol,
    List.map_congr_left fun row hrow => writeRow_length (h.values row hrow).1, tableSize]

theorem Storable.printed {name : Bytes} {r : Rel} (h : Storable name r) :
    Printed name r.schema.columns r.rows :=
  ⟨h.name, h.columns_lt, h.coded,
    fun row hrow => ⟨h.writes (h.valid row hrow), h.row_lt (h.valid row hrow)⟩, h.count⟩

theorem visible_rows (now : Int64) (t : Table) : (visible now t).rows = shown now t := by
  rw [visible, shown]
  cases t.scanAll now with
  | error f => rfl
  | ok rows => rfl

section Files

variable {now : Int64} {tables : List (Bytes × Table)} {lsn : UInt64} {file : Bytes}

theorem contents_length (h : ∀ q ∈ tables, Storing q.1 q.2)
    (hfile : Snapshot.contents now tables lsn = .ok file) :
    file.length = snapshotSize now tables := by
  have htable : ∀ q ∈ tables, (Snapshot.writeTable q.1 (visible now q.2).schema
      (visible now q.2).rows).length = tableSize q.1 q.2.schema.columns (shown now q.2) := by
    intro q hq
    rw [writeTable_length (storing_saved (h q hq) now).storable.printed, visible_rows]
    rfl
  rw [contents_storing h] at hfile
  obtain rfl := Except.ok.inj hfile
  rw [List.length_append, List.length_flatMap, List.map_map, snapshotSize]
  refine congrArg₂ (· + ·) ?_ (congrArg List.sum (List.map_congr_left htable))
  simp only [Snapshot.writeHeader, List.length_append, Bytes.le_length]

/-! ## Files of too many tables -/

theorem loadTables_card {n : Nat} {m m' : Finmap fun _ : Bytes => Table} {s : Bytes}
    (h : Snapshot.loadTables now n m s = .ok (.ok m')) : m'.keys.card ≤ m.keys.card + n := by
  induction n generalizing m s with
  | zero =>
      obtain rfl := Except.ok.inj (Except.ok.inj h)
      exact Nat.le_refl _
  | succ n ih =>
      rw [Snapshot.loadTables] at h
      obtain ⟨x, -, h⟩ := Outcome.bind_eq_ok.mp h
      cases x with
      | error e => exact absurd h (by simp)
      | ok x =>
          obtain ⟨⟨name, t⟩, s'⟩ := x
          have hsub : (m.insert name t).keys ⊆ insert name m.keys := by
            intro k hk
            rw [Finmap.mem_keys, Finmap.mem_insert] at hk
            rw [Finset.mem_insert, Finmap.mem_keys]
            exact hk
          have hcard := (Finset.card_le_card hsub).trans (Finset.card_insert_le _ _)
          have := ih h
          omega

/-- A load takes at most as many tables as the low half of their number. -/
theorem load_card {n : Nat} {w s : Bytes} (hs : Reader.Meets s (Snapshot.writeHeader lsn n ++ w))
    {r : Snapshot.LoadResult} (h : Snapshot.load now s = .ok (.ok r)) :
    r.tables.keys.card ≤ n % 2 ^ 32 := by
  have hparse : Parses Snapshot.readHeader (Snapshot.writeHeader lsn n) (lsn, n % 2 ^ 32) := by
    rw [← writeHeader_mod]
    exact parses_header lsn (Nat.mod_lt _ (by decide))
  rw [Snapshot.load] at h
  rcases hs.append with hcut | ⟨q, rfl, -⟩
  · obtain ⟨e, he⟩ := guards_header lsn n s hcut
    rw [he] at h
    exact absurd h (by simp)
  · rw [hparse] at h
    obtain ⟨x, hload, h⟩ := Outcome.bind_eq_ok.mp h
    cases x with
    | error e => exact absurd h (by simp)
    | ok m =>
        obtain rfl := Except.ok.inj (Except.ok.inj h)
        simpa using loadTables_card hload

end Files

/-! ## Checkpoints -/

section Checkpoints

variable {m : Finmap fun _ : Bytes => Table} {tables : List (Bytes × Table)} {now : Int64}
variable {lsn : UInt64} {file : Bytes}

/-- A whole snapshot decodes to the tables. -/
theorem contents_decodes (horder : Enumerates tables m) (hcard : tables.length < 2 ^ 32)
    (hstore : ∀ q ∈ tables, Storing q.1 q.2)
    (hfile : Snapshot.contents now tables lsn = .ok file) : Decodes now m file := by
  have hstoring : ∀ name t, m.lookup name = some t → Storing name t := fun name t ht =>
    hstore (name, t) ((horder.mem name t).mpr ht)
  intro now'
  obtain ⟨file', hfile', hload⟩ := @contents_visible m tables now horder hcard hstoring lsn
  obtain rfl := Except.ok.inj (hfile.symm.trans hfile')
  obtain ⟨m', hrun, hm'⟩ := hload now'
  refine ⟨_, hrun, hm'.imp fun name t t' ht _ ht' => ⟨ht'.schema, ?_⟩⟩
  exact ⟨_, storing_scan (hstoring name t ht) now, ht'.scanAll⟩

/-- The beginning of a snapshot decodes to the tables only if it is the whole
and announces them all. -/
theorem decodes_take_iff (horder : Enumerates tables m) (hstore : ∀ q ∈ tables, Storing q.1 q.2)
    (hfile : Snapshot.contents now tables lsn = .ok file) (room : Nat) :
    Decodes now m (file.take room) ↔
      snapshotSize now tables ≤ room ∧ tables.length < 2 ^ 32 := by
  have hlen := contents_length hstore hfile
  constructor
  · intro hdecodes
    obtain ⟨r, hload, hkeeps⟩ := hdecodes 0
    have hcard : tables.length < 2 ^ 32 := by
      have hcount : r.tables.keys.card = tables.length := by
        rw [Enumerates.length_eq horder, hkeeps.keys_eq]
      rw [contents_storing hstore] at hfile
      obtain rfl := Except.ok.inj hfile
      have hle := load_card (.inl (List.take_prefix room _)) hload
      have hlt : tables.length % 2 ^ 32 < 2 ^ 32 := Nat.mod_lt _ (by decide)
      omega
    refine ⟨Nat.le_of_not_lt fun hlt => ?_, hcard⟩
    have hcut : Reader.Cut (file.take room) file := by
      refine ⟨List.take_prefix _ _, fun heq => ?_⟩
      have := congrArg List.length heq
      rw [List.length_take] at this
      omega
    rcases contents_cut (fun q hq => storing_savable (hstore q hq)) hcard hfile hcut 0 with
      ⟨e, he⟩ | ⟨hfits, -⟩
    · exact absurd (he.symm.trans hload) nofun
    · exact absurd (fun q hq => storing_fits (hstore q hq)) hfits
  · rintro ⟨hroom, hcard⟩
    rw [List.take_of_length_le (hlen.trans_le hroom)]
    exact contents_decodes horder hcard hstore hfile

/-- With room enough it is the checkpoint on a file system without faults. -/
theorem takeSnapshotInto_roomy {db : Database} {room : Nat}
    (h : ∀ file, Snapshot.contents now tables db.coveredLsn = .ok file → file.length ≤ room)
    (disk : Disk) :
    db.takeSnapshotInto room now tables disk = db.takeSnapshot now none tables disk := by
  rw [Database.takeSnapshotInto, Database.takeSnapshot]
  split
  · simp only [saveInto_eq, Database.saveSnapshot, Snapshot.save]
    cases hfile : Snapshot.contents now tables db.coveredLsn with
    | error f => simp only [Outcome.bind_error]
    | ok file => simp only [Outcome.bind_ok, List.take_of_length_le (h file hfile)]
  · rfl

/-- What a checkpoint does to the files, whether the bytes fit or not. -/
theorem takeSnapshotInto_eq {db : Database} {w : WALWriter} (hdir : db.persistent = true)
    (hwal : db.walWriter = some w) (room : Nat) (disk : Disk)
    (hfile : Snapshot.contents now tables db.coveredLsn = .ok file) :
    db.takeSnapshotInto room now tables disk = .ok (({ db with snapshotLsn := db.coveredLsn },
      ⟨some (file.take room), some []⟩), none) := by
  rw [Database.takeSnapshotInto, if_pos hdir]
  simp only [saveInto_eq, hfile, Outcome.bind_ok, Database.truncateWal, hwal, WALWriter.truncate]

variable [FloatLib]

/-- What a directory with a snapshot and an empty log recovers to. -/
theorem recover_snapshot {dataDir : Bytes} {r : Snapshot.LoadResult}
    (h : Snapshot.load now file = .ok (.ok r)) :
    ∃ db, (Database.fresh dataDir).recover now ⟨some file, some []⟩ = .ok db ∧
      db.executor.tables = r.tables := by
  refine ⟨{ Database.fresh dataDir with
    executor := { Executor.new with tables := r.tables ∪ ∅ }
    snapshotLsn := r.lastWalLsn }, ?_, Finmap.union_empty⟩
  simp only [Database.recover, Database.loadSnapshot, h, Outcome.bind_ok, Database.replayWal,
    WALReader.replay, readAll_nil, WALReader.replayRecords]
  rfl

/-- A checkpoint always says that it succeeded. It has done its work if and
only if the stream had room for the whole snapshot, and the snapshot announces
all the tables. -/
theorem takeSnapshotInto_survives_iff {db : Database} {w : WALWriter}
    (hdir : db.persistent = true) (hwal : db.walWriter = some w)
    (horder : Enumerates tables db.executor.tables) (hstore : ∀ q ∈ tables, Storing q.1 q.2)
    (now : Int64) (disk : Disk) (room : Nat) :
    ∃ after e, db.takeSnapshotInto room now tables disk = .ok (after, e) ∧
      (Checkpointed db now disk after.2 e ↔
        snapshotSize now tables ≤ room ∧ tables.length < 2 ^ 32) := by
  have hfile := contents_storing hstore now db.coveredLsn
  refine ⟨_, _, takeSnapshotInto_eq hdir hwal room disk hfile, ?_⟩
  rw [← decodes_take_iff horder hstore hfile room]
  constructor
  · intro h
    rcases h.answer with ⟨-, file', heq, hdecodes⟩ | ⟨he, -⟩
    · obtain rfl := Option.some.inj heq
      exact hdecodes
    · exact absurd he (by simp)
  · intro hdecodes
    refine ⟨.inl ⟨rfl, _, rfl, hdecodes⟩, fun now' => ?_⟩
    obtain ⟨r, hload, hkeeps⟩ := hdecodes now'
    obtain ⟨db', hrec, htables⟩ := recover_snapshot hload
    exact ⟨db', hrec, htables ▸ hkeeps⟩

end Checkpoints

section Runs

attribute [local instance] noDoubles

/-- A hundred bytes are enough for a table with one row. -/
theorem takeSnapshotInto_survives_roomy : ∃ (db : Database) (t : Table) (after : Database × Disk)
    (e : Option Bytes), db.executor.tables.lookup (Bytes.lit "T") = some t ∧
    t.scanAll 0 = .ok [[.int 2, .int 5]] ∧
    db.takeSnapshotInto 100 0 [(Bytes.lit "T", t)] Disk.empty = .ok (after, e) ∧
    Checkpointed db 0 Disk.empty after.2 e := by
  obtain ⟨t, hscan, hcols, hstoring⟩ := exists_storing
  let db : Database := { Database.fresh (Bytes.lit "d") with
    executor := { Executor.new with tables := Finmap.singleton (Bytes.lit "T") t }
    walWriter := some ⟨3⟩ }
  have horder : Enumerates [(Bytes.lit "T", t)] db.executor.tables :=
    enumerates_single (by rw [Finmap.keys_singleton]; rfl) Finmap.lookup_singleton_eq
  have hsize : snapshotSize 0 [(Bytes.lit "T", t)] ≤ 100 := by
    rw [snapshotSize, List.map_singleton, shown, hscan, hcols]
    exact show 28 + [tableSize (Bytes.lit "T") pairSchema.columns
      [[.int 2, .int 5]]].sum ≤ 100 by decide
  obtain ⟨after, e, hrun, hiff⟩ := @takeSnapshotInto_survives_iff _ _ db ⟨3⟩ rfl rfl horder
    (List.forall_mem_singleton.mpr (hstoring (Bytes.lit "T") (by decide))) 0 Disk.empty 100
  exact ⟨db, t, after, e, Finmap.lookup_singleton_eq, hscan, hrun, hiff.mpr ⟨hsize, by simp⟩⟩

/-- A table is created and a row goes in. The snapshot is cut off behind 40
bytes and the log is emptied: a crash now loses the table, though the answer
was that the snapshot was taken. -/
theorem takeSnapshotInto_loses_tables : ∃ s t after db, Lifetime (Bytes.lit "d") s ∧
    Enumerates [(Bytes.lit "T", t)] s.1.executor.tables ∧ t.rowCount = 1 ∧
    s.1.takeSnapshotInto 40 0 [(Bytes.lit "T", t)] s.2 = .ok (after, none) ∧
    (Database.fresh (Bytes.lit "d")).recover 0 after.2 = .ok db ∧
    db.executor.tables.lookup (Bytes.lit "T") = none ∧
    ¬ Checkpointed s.1 0 s.2 after.2 none := by
  have hrun : (do
      let s₀ ← Database.new (Bytes.lit "d") 0 Disk.empty
      let (s₁, _) ← s₀.1.execute 0 s₀.2 (Bytes.lit "CREATE TABLE t (id INT)")
      let (s₂, _) ← s₁.1.execute 0 s₁.2 (Bytes.lit "INSERT INTO t VALUES (1)")
      let t ← Executor.cell (s₂.1.executor.tables.lookup (Bytes.lit "T")).toList 0
      let (after, e) ← s₂.1.takeSnapshotInto 40 0 [(Bytes.lit "T", t)] s₂.2
      let db ← (Database.fresh (Bytes.lit "d")).recover 0 after.2
      .ok (decide (Within s₀.1 ∧ Within s₁.1 ∧ s₂.1.executor.tables.keys.card = 1 ∧
          s₂.1.dataDir = Bytes.lit "d" ∧ t.rowCount = 1 ∧ e = none),
        (db.executor.tables.lookup (Bytes.lit "T")).isNone) : Outcome _)
        = .ok (true, true) := by decide +kernel
  obtain ⟨s₀, hopen, hrun⟩ := Outcome.bind_eq_ok.mp hrun
  obtain ⟨⟨s₁, r₁⟩, hcreate, hrun⟩ := Outcome.bind_eq_ok.mp hrun
  obtain ⟨⟨s₂, r₂⟩, hinsert, hrun⟩ := Outcome.bind_eq_ok.mp hrun
  obtain ⟨t, ht, hrun⟩ := Outcome.bind_eq_ok.mp hrun
  obtain ⟨⟨after, e⟩, hsave, hrun⟩ := Outcome.bind_eq_ok.mp hrun
  obtain ⟨db, hrec, hrun⟩ := Outcome.bind_eq_ok.mp hrun
  simp only [Except.ok.injEq, Prod.mk.injEq, decide_eq_true_eq] at hrun
  obtain ⟨⟨hw₀, hw₁, hcard, hdir, hcount, rfl⟩, hnone⟩ := hrun
  have hlook := cell_toList ht
  have hlife := ((Lifetime.opened (by decide) hopen).call (.execute hw₀ loggable_create
    hcreate)).call (.execute hw₁ loggable_insert hinsert)
  refine ⟨s₂, t, after, db, hlife, enumerates_single hcard hlook, hcount, hsave, hrec,
    Option.isNone_iff_eq_none.mp hnone, fun h => ?_⟩
  obtain ⟨db', hrec', hkeeps⟩ := h.recovers 0
  rw [hdir, hrec] at hrec'
  obtain rfl := Except.ok.inj hrec'
  obtain ⟨t', ht', -⟩ := hkeeps.left hlook
  rw [ht'] at hnone
  exact absurd hnone (by simp)

end Runs

/-! ## Unreadable snapshots -/

/-- A snapshot that is refused leaves everything as it was. -/
theorem takeSnapshot_refused {db : Database} {disk : Disk} {after : Database × Disk}
    {now : Int64} {fault : Option Snapshot.SaveFault} {tables : List (Bytes × Table)}
    {e : Option Bytes} (hfault : fault ≠ none)
    (h : db.takeSnapshot now fault tables disk = .ok (after, e)) : after = (db, disk) := by
  rw [Database.takeSnapshot] at h
  split at h
  · obtain ⟨x, hsave, h⟩ := Outcome.bind_eq_ok.mp h
    cases x with
    | error e => exact (Prod.mk.inj (Except.ok.inj h)).1.symm
    | ok after' =>
        obtain ⟨x, hx, hsave⟩ := Outcome.bind_eq_ok.mp hsave
        cases fault with
        | none => exact absurd rfl hfault
        | some fault =>
            cases fault with
            | openTemp =>
                obtain rfl := Except.ok.inj hx
                exact absurd hsave (by simp)
            | renameTemp =>
                obtain ⟨file, -, hx⟩ := Outcome.bind_eq_ok.mp hx
                obtain rfl := Except.ok.inj hx
                exact absurd hsave (by simp)
  · exact (Prod.mk.inj (Except.ok.inj h)).1.symm

/-- One that is not puts the tables in the place of the old snapshot. -/
theorem takeSnapshot_replaces {db : Database} {disk : Disk} {after : Database × Disk}
    {now : Int64} {tables : List (Bytes × Table)} {e : Option Bytes} (hdir : db.dataDir ≠ [])
    (h : db.takeSnapshot now none tables disk = .ok (after, e)) :
    after.1.dataDir = db.dataDir ∧ ∃ file, after.2.snapshot = some file ∧
      Snapshot.contents now tables db.coveredLsn = .ok file := by
  rw [Database.takeSnapshot, if_pos (by simpa [Database.persistent] using hdir)] at h
  obtain ⟨x, hsave, h⟩ := Outcome.bind_eq_ok.mp h
  cases x with
  | error e =>
      obtain ⟨x, hx, hsave⟩ := Outcome.bind_eq_ok.mp hsave
      obtain ⟨file, -, hx⟩ := Outcome.bind_eq_ok.mp hx
      obtain rfl := Except.ok.inj hx
      exact absurd hsave (by simp)
  | ok after' =>
      obtain ⟨file, hfile, rfl⟩ := saveSnapshot_ok hsave
      rw [← (Prod.mk.inj (Except.ok.inj h)).1, Database.truncateWal]
      split
      · exact ⟨rfl, file, rfl, hfile⟩
      · exact ⟨rfl, file, rfl, hfile⟩

/-- What holds without a snapshot and of what any snapshot loads to. -/
theorem loadSnapshot_keeps {P : Database → Prop} {db db' : Database} {now : Int64}
    {snapshot : Option Bytes} (hdb : P db)
    (hload : ∀ file r, snapshot = some file → Snapshot.load now file = .ok (.ok r) →
      P { db with
        executor := { db.executor with tables := r.tables ∪ db.executor.tables }
        snapshotLsn := r.lastWalLsn })
    (h : db.loadSnapshot now snapshot = .ok db') : P db' := by
  cases snapshot with
  | none => exact Except.ok.inj h ▸ hdb
  | some file =>
      obtain ⟨x, hfile, h⟩ := Outcome.bind_eq_ok.mp h
      cases x with
      | error e => exact Except.ok.inj h ▸ hdb
      | ok r => exact Except.ok.inj h ▸ hload file r rfl hfile

section Lifespans

variable [FloatLib] {dataDir : Bytes} {start : Disk} {saves : List Save} {s : Database × Disk}

/-- What loading the snapshot and executing a record of the log keep, recovery
keeps. -/
theorem recover_keeps {P : Database → Prop} {db db' : Database} {now : Int64} {disk : Disk}
    (hload : ∀ db₁, db.loadSnapshot now disk.snapshot = .ok db₁ → P db₁)
    (hstep : ∀ db₁ rec db₂ go, P db₁ → Database.replayRecord now db₁ rec = .ok (db₂, go) → P db₂)
    (hcount : ∀ db₁ n, P db₁ → P { db₁ with recoveredWalRecords := n })
    (h : db.recover now disk = .ok db') : P db' := by
  obtain ⟨loaded, hloaded, h⟩ := Outcome.bind_eq_ok.mp h
  cases hwal : disk.wal with
  | none =>
      rw [hwal] at h
      exact Except.ok.inj h ▸ hload loaded hloaded
  | some file =>
      rw [hwal, Database.replayWal] at h
      obtain ⟨⟨replayed, n⟩, hreplay, h⟩ := Outcome.bind_eq_ok.mp h
      rw [← Except.ok.inj h]
      exact hcount _ _ (replayRecords_keeps hstep (hload loaded hloaded) hreplay)

theorem recover_dataDir {db db' : Database} {now : Int64} {disk : Disk}
    (h : db.recover now disk = .ok db') : db'.dataDir = db.dataDir := by
  refine @recover_keeps _ (fun db₁ => db₁.dataDir = db.dataDir) db db' now disk ?_ ?_ ?_ h
  · exact fun db₁ => @loadSnapshot_keeps (fun db₁ => db₁.dataDir = db.dataDir) _ _ _ _ rfl
      fun _ _ _ _ => rfl
  · intro db₁ rec db₂ go hdb hrun
    rw [Database.replayRecord] at hrun
    split at hrun
    · rw [← (Prod.mk.inj (Except.ok.inj hrun)).1, hdb]
    · obtain ⟨⟨ex, res⟩, -, hrun⟩ := Outcome.bind_eq_ok.mp hrun
      rw [← (Prod.mk.inj (Except.ok.inj hrun)).1, ← hdb]
  · exact fun db₁ n hdb => hdb

/-- Opening a database leaves the snapshot alone. -/
theorem new_frame {now : Int64} (h : Database.new dataDir now start = .ok s) :
    s.1.dataDir = dataDir ∧ s.2.snapshot = start.snapshot := by
  rw [Database.new] at h
  split at h
  · obtain ⟨db, hrec, h⟩ := Outcome.bind_eq_ok.mp h
    obtain rfl := Except.ok.inj h
    exact ⟨recover_dataDir hrec, rfl⟩
  · obtain rfl := Except.ok.inj h
    exact ⟨rfl, rfl⟩

/-- So does every statement. -/
theorem execute_frame {db : Database} {disk : Disk} {after : Database × Disk} {now : Int64}
    {sql : Bytes} {r : QueryResult} (h : db.execute now disk sql = .ok (after, r)) :
    after.1.dataDir = db.dataDir ∧ after.2.snapshot = disk.snapshot := by
  have hlog : (db.log disk sql).1.dataDir = db.dataDir ∧
      (db.log disk sql).2.snapshot = disk.snapshot := by
    rw [Database.log]
    split
    · exact ⟨rfl, rfl⟩
    · split
      · exact ⟨rfl, rfl⟩
      · exact ⟨rfl, rfl⟩
  obtain ⟨⟨db', r'⟩, hrun, h⟩ := Outcome.bind_eq_ok.mp h
  obtain ⟨⟨ex, r''⟩, -, hrun⟩ := Outcome.bind_eq_ok.mp hrun
  rw [← (Prod.mk.inj (Except.ok.inj h)).1, ← (Prod.mk.inj (Except.ok.inj hrun)).1]
  exact hlog

theorem lifespan_dataDir (h : Lifespan dataDir start saves s) (hdir : dataDir ≠ []) :
    s.1.dataDir = dataDir := by
  induction h with
  | opened hnew => exact (new_frame hnew).1
  | execute _ hrun ih => exact (execute_frame hrun).1.trans ih
  | @snapshot _ db _ _ _ save _ _ _ hrun ih =>
      cases hfault : save.fault with
      | some fault => rw [takeSnapshot_refused (by simp [hfault]) hrun, ih]
      | none =>
          rw [hfault] at hrun
          exact (takeSnapshot_replaces (ih ▸ hdir) hrun).1.trans ih

/-- As long as every snapshot is refused, the old one is there. -/
theorem lifespan_keeps (h : Lifespan dataDir start saves s) (hsaves : ∀ x ∈ saves, x.fault ≠ none) :
    s.2.snapshot = start.snapshot := by
  induction h with
  | opened hnew => exact (new_frame hnew).2
  | execute _ hrun ih => exact (execute_frame hrun).2.trans (ih hsaves)
  | @snapshot _ _ _ _ _ save _ _ _ hrun ih =>
      rw [takeSnapshot_refused (hsaves save (by simp)) hrun]
      exact ih fun x hx => hsaves x (List.mem_append_left _ hx)

/-- Once one is not, there is a snapshot that loads. -/
theorem lifespan_replaces (h : Lifespan dataDir start saves s) (hdir : dataDir ≠ [])
    (hstore : ∀ x ∈ saves, x.fault = none → ∀ q ∈ x.tables, Storing q.1 q.2)
    (hsaved : ∃ x ∈ saves, x.fault = none) :
    ∃ file, s.2.snapshot = some file ∧ ∀ now, ∃ r, Snapshot.load now file = .ok (.ok r) := by
  induction h with
  | opened hnew => exact absurd hsaved (by simp)
  | execute _ hrun ih =>
      rw [(execute_frame hrun).2]
      exact ih hstore hsaved
  | @snapshot saves db disk _ _ save _ hlife _ hrun ih =>
      cases hfault : save.fault with
      | some fault =>
          rw [takeSnapshot_refused (by simp [hfault]) hrun]
          refine ih (fun x hx => hstore x (List.mem_append_left _ hx)) ?_
          obtain ⟨x, hx, hnone⟩ := hsaved
          rcases List.mem_append.mp hx with hx | hx
          · exact ⟨x, hx, hnone⟩
          · rw [List.mem_singleton.mp hx, hfault] at hnone
            exact absurd hnone nofun
      | none =>
          have hdb : db.dataDir ≠ [] := lifespan_dataDir hlife hdir ▸ hdir
          rw [hfault] at hrun
          obtain ⟨-, file, hfile, hcontents⟩ := takeSnapshot_replaces hdb hrun
          exact ⟨file, hfile, load_contents (hstore save (by simp) hfault) hcontents⟩

/-- A snapshot that does not load survives a lifespan as long as the file
system refuses every snapshot. That is the only way, if those it does not
refuse are of tables that can be stored. -/
theorem unreadable_snapshot_kept_iff (hdir : dataDir ≠ []) {old : Bytes}
    (hold : start.snapshot = some old) {now : Int64} {e : Bytes}
    (hbad : Snapshot.load now old = .ok (.error e)) (h : Lifespan dataDir start saves s) :
    ((∀ x ∈ saves, x.fault ≠ none) → s.2.snapshot = some old) ∧
    ((∀ x ∈ saves, x.fault = none → ∀ q ∈ x.tables, Storing q.1 q.2) →
      (s.2.snapshot = some old ↔ ∀ x ∈ saves, x.fault ≠ none)) := by
  have hkeeps : (∀ x ∈ saves, x.fault ≠ none) → s.2.snapshot = some old := fun hsaves =>
    (lifespan_keeps h hsaves).trans hold
  refine ⟨hkeeps, fun hstore => ⟨fun hsame x hx hnone => ?_, hkeeps⟩⟩
  obtain ⟨file, hfile, hload⟩ := lifespan_replaces h hdir hstore ⟨x, hx, hnone⟩
  obtain rfl := Option.some.inj (hfile.symm.trans hsame)
  obtain ⟨r, hr⟩ := hload now
  exact absurd (hbad.symm.trans hr) nofun

end Lifespans

section Runs

attribute [local instance] noDoubles

theorem enumerates_nil {m : Finmap fun _ : Bytes => Table} (h : m.keys.card = 0) :
    Enumerates [] m := by
  refine ⟨List.nodup_nil, fun name t => ⟨fun hmem => absurd hmem (by simp), fun ht => ?_⟩⟩
  have hkey : name ∈ m.keys := Finmap.mem_keys.mpr (Finmap.mem_iff.mpr ⟨t, ht⟩)
  rw [Finset.card_eq_zero.mp h] at hkey
  exact absurd hkey (by simp)

/-- A file that is no snapshot, and a destructor that cannot rename. -/
theorem unreadable_snapshot_kept_refused : ∃ s saves, saves ≠ [] ∧
    Lifespan (Bytes.lit "d") ⟨some (Bytes.lit "x"), none⟩ saves s ∧
    s.2.snapshot = some (Bytes.lit "x") := by
  have hrun : (do
      let s₀ ← Database.new (Bytes.lit "d") 0 ⟨some (Bytes.lit "x"), none⟩
      let (s₁, _) ← s₀.1.execute 0 s₀.2 (Bytes.lit "SELECT * FROM t")
      let (s₂, _) ← s₁.1.takeSnapshot 0 (some .renameTemp) [] s₁.2
      .ok (decide (s₁.1.executor.tables.keys.card = 0), s₂.2.wal.isSome) : Outcome _)
        = .ok (true, true) := by decide +kernel
  obtain ⟨s₀, hopen, hrun⟩ := Outcome.bind_eq_ok.mp hrun
  obtain ⟨⟨s₁, r⟩, hselect, hrun⟩ := Outcome.bind_eq_ok.mp hrun
  obtain ⟨⟨s₂, e⟩, hsave, hrun⟩ := Outcome.bind_eq_ok.mp hrun
  simp only [Except.ok.injEq, Prod.mk.injEq, decide_eq_true_eq] at hrun
  have hlife : Lifespan (Bytes.lit "d") ⟨some (Bytes.lit "x"), none⟩
      [⟨some .renameTemp, []⟩] s₂ :=
    ((Lifespan.opened hopen).execute hselect).snapshot (enumerates_nil hrun.1) hsave
  exact ⟨s₂, _, by simp, hlife, (@unreadable_snapshot_kept_iff _ _ _ _ _ (by decide) _ rfl 0
    (Bytes.lit "Invalid snapshot magic") rfl hlife).1 (by simp)⟩

/-- A snapshot of a table with a row has lost its last byte. The database opens
without the table, and its destructor replaces the file by a snapshot without
tables. -/
theorem unreadable_snapshot_destroyed : ∃ file old e r, Reader.Cut old file ∧
    (∃ m t, Snapshot.load 0 file = .ok (.ok ⟨2, m⟩) ∧ m.lookup (Bytes.lit "T") = some t ∧
      t.rowCount = 1) ∧
    Snapshot.load 0 old = .ok (.error e) ∧
    ∃ s new, Lifespan (Bytes.lit "d") ⟨some old, some []⟩ [⟨none, []⟩] s ∧
      s.2.snapshot = some new ∧ new ≠ old ∧ Snapshot.load 0 new = .ok (.ok r) ∧
      r.tables.keys.card = 0 := by
  have hrun : (do
      let s₀ ← Database.new (Bytes.lit "d") 0 Disk.empty
      let (s₁, _) ← s₀.1.execute 0 s₀.2 (Bytes.lit "CREATE TABLE t (id INT)")
      let (s₂, _) ← s₁.1.execute 0 s₁.2 (Bytes.lit "INSERT INTO t VALUES (1)")
      let t ← Executor.cell (s₂.1.executor.tables.lookup (Bytes.lit "T")).toList 0
      let file ← Snapshot.contents 0 [(Bytes.lit "T", t)] s₂.1.coveredLsn
      let whole ← Snapshot.load 0 file
      let whole ← Executor.cell whole.toOption.toList 0
      let t' ← Executor.cell (whole.tables.lookup (Bytes.lit "T")).toList 0
      let cut ← Snapshot.load 0 (file.take 62)
      let s₃ ← Database.new (Bytes.lit "d") 0 ⟨some (file.take 62), some []⟩
      let (s₄, _) ← s₃.1.takeSnapshot 0 none [] s₃.2
      let new ← Executor.cell s₄.2.snapshot.toList 0
      let r ← Snapshot.load 0 new
      let r ← Executor.cell r.toOption.toList 0
      .ok (decide (file.length = 63 ∧ whole.lastWalLsn = 2 ∧ t'.rowCount = 1 ∧
        cut.toOption.isNone ∧ s₃.1.executor.tables.keys.card = 0 ∧ new ≠ file.take 62 ∧
        r.tables.keys.card = 0)) : Outcome _) = .ok true := by decide +kernel
  obtain ⟨s₀, -, hrun⟩ := Outcome.bind_eq_ok.mp hrun
  obtain ⟨⟨s₁, r₁⟩, -, hrun⟩ := Outcome.bind_eq_ok.mp hrun
  obtain ⟨⟨s₂, r₂⟩, -, hrun⟩ := Outcome.bind_eq_ok.mp hrun
  obtain ⟨t, -, hrun⟩ := Outcome.bind_eq_ok.mp hrun
  obtain ⟨file, -, hrun⟩ := Outcome.bind_eq_ok.mp hrun
  obtain ⟨loaded, hload, hrun⟩ := Outcome.bind_eq_ok.mp hrun
  obtain ⟨⟨lsn, m⟩, hwhole, hrun⟩ := Outcome.bind_eq_ok.mp hrun
  obtain ⟨t', ht', hrun⟩ := Outcome.bind_eq_ok.mp hrun
  obtain ⟨cut, hcut, hrun⟩ := Outcome.bind_eq_ok.mp hrun
  obtain ⟨s₃, hopen, hrun⟩ := Outcome.bind_eq_ok.mp hrun
  obtain ⟨⟨s₄, e⟩, hsave, hrun⟩ := Outcome.bind_eq_ok.mp hrun
  obtain ⟨new, hnew, hrun⟩ := Outcome.bind_eq_ok.mp hrun
  obtain ⟨again, hagain, hrun⟩ := Outcome.bind_eq_ok.mp hrun
  obtain ⟨r, hr, hrun⟩ := Outcome.bind_eq_ok.mp hrun
  simp only [Except.ok.injEq, decide_eq_true_eq] at hrun
  obtain ⟨hlen, rfl, hcount, hnone, hcard, hne, hempty⟩ := hrun
  rw [toOption_eq_some (cell_toList hwhole)] at hload
  rw [toOption_eq_some (cell_toList hr)] at hagain
  cases cut with
  | ok x => exact absurd hnone (by simp [Except.toOption])
  | error e =>
      refine ⟨file, file.take 62, e, r, ⟨List.take_prefix _ _, fun heq => ?_⟩,
        ⟨m, t', hload, cell_toList ht', hcount⟩, hcut, s₄, new,
        (Lifespan.opened hopen).snapshot (enumerates_nil hcard) hsave, cell_toList hnew, hne,
        hagain, hempty⟩
      have := congrArg List.length heq
      rw [List.length_take, hlen] at this
      omega

end Runs

end FlexQL.Proofs
