import FlexQL.Proofs.Expiry
import FlexQL.Proofs.FirstColumn
import FlexQL.Proofs.Harmless
import FlexQL.Proofs.RoundTrip
import FlexQL.Spec.Ages

/-!
# Restarts make rows younger

A table stores when a row expires, counted from the insertion into this very
table. Neither the loader nor the replay knows of an earlier one, so a row that
comes back lives for its whole lifetime again. That is right just if it came
back in the second in which it was first inserted.
-/

namespace FlexQL.Proofs

open Lib FlexQL.Ref FlexQL.Spec

/-! ## Names -/

/-- The names of the tables are ones a snapshot can hold. -/
def NamedTables (m : Finmap fun _ : Bytes => Table) : Prop :=
  ∀ name t, m.lookup name = some t → name.length ≤ Snapshot.maxStr ∧
    ∀ c ∈ t.schema.columns, c.name.length ≤ Snapshot.maxStr ∧ Known c.type

theorem NamedTables.insert {m : Finmap fun _ : Bytes => Table} (h : NamedTables m) {name : Bytes}
    {t : Table} (hname : name.length ≤ Snapshot.maxStr)
    (hcols : ∀ c ∈ t.schema.columns, c.name.length ≤ Snapshot.maxStr ∧ Known c.type) :
    NamedTables (m.insert name t) := by
  intro name' t' hlook
  by_cases hn : name' = name
  · subst hn
    rw [Finmap.lookup_insert] at hlook
    obtain rfl := Option.some.inj hlook
    exact ⟨hname, hcols⟩
  · rw [Finmap.lookup_insert_of_ne _ hn] at hlook
    exact h name' t' hlook

/-! ## Times -/

/-- The times belong to the records: `P` relates each one to the time at which
the record was put into its table. -/
def Timed (P : Int64 → Int64 → Prop) (firsts : Bytes → List Int64) (rows : Bytes → List Record) :
    Prop :=
  ∀ name, List.Forall₂ (fun first rec => ∃ time row, P first time ∧
    rec = recordOf defaultTtlSeconds (time, row)) (firsts name) (rows name)

theorem Stocked.rowsIn {ex : Executor} {rows : Bytes → List Record} (h : Stocked ex rows)
    (name : Bytes) :
    rowsIn ex.tables name = (rows name).length := by
  rw [Spec.rowsIn]
  cases ht : ex.tables.lookup name with
  | none => rw [h.absent name ht]; rfl
  | some t => exact (h.stored name t ht).1.rows.length_eq

theorem forall₂_replicate {α β : Type} {R : α → β → Prop} {a : α} {l : List β}
    (h : ∀ b ∈ l, R a b) : List.Forall₂ R (List.replicate l.length a) l := by
  induction l with
  | nil => exact .nil
  | cons b l ih =>
      exact .cons (h b List.mem_cons_self) (ih fun b' hb => h b' (List.mem_cons_of_mem b hb))

/-! ## What is seen -/

section Seen

variable {t : Table} {ps : List Ptr} {rs : List Record} {times : List Int64} {now later : Int64}

theorem length_survivors (h : List.Forall₂ (RowAt t.schema t.arena) ps rs) (hf : Fits t.schema)
    (hlen : times.length = rs.length) :
    ((ps.zip times).filter fun x => t.isRowValid now x.1 = .ok true).length =
      (rs.filter (·.live now)).length := by
  induction h generalizing times with
  | nil => rfl
  | @cons p r ps rs hp _ ih =>
      cases times with
      | nil => exact absurd hlen (by simp)
      | cons time times =>
          have hrest := @ih times (Nat.succ.inj hlen)
          have hvalid := hp.isRowValid hf now
          rw [List.zip_cons_cons]
          cases hl : r.live now with
          | true =>
              rw [hl] at hvalid
              rw [List.filter_cons_of_pos (by simp [hvalid]), List.filter_cons_of_pos hl,
                List.length_cons, List.length_cons, hrest]
          | false =>
              rw [hl] at hvalid
              rw [List.filter_cons_of_neg (by simp [hvalid]),
                List.filter_cons_of_neg (by simp [hl]), hrest]

/-- If every row that is seen is young, a scan shows some of the young rows. -/
theorem mapM_young (h : List.Forall₂ (RowAt t.schema t.arena) ps rs) (hf : Fits t.schema)
    (ht : List.Forall₂ (fun time rec =>
      rec.live later = true → WithinTtl t.ttlSeconds time later) times rs) :
    ∃ young, ((ps.zip times).filter fun x => WithinTtl t.ttlSeconds x.2 later).mapM
        (fun x => t.readRow x.1) = .ok young ∧
      ((rs.filter (·.live later)).map (·.values)).Sublist young := by
  induction h generalizing times with
  | nil => exact ⟨[], rfl, .slnil⟩
  | @cons p r ps rs hp _ ih =>
      obtain ⟨time, times, hage, htimes, rfl⟩ := List.forall₂_cons_right_iff.mp ht
      obtain ⟨young, hrun, hsub⟩ := ih htimes
      rw [List.zip_cons_cons]
      by_cases hw : WithinTtl t.ttlSeconds time later
      · refine ⟨r.values :: young, ?_, ?_⟩
        · rw [List.filter_cons_of_pos (by simpa using hw), List.mapM_cons, hp.readRow hf, hrun]
          rfl
        · by_cases hl : r.live later = true
          · rw [List.filter_cons_of_pos hl, List.map_cons]
            exact hsub.cons_cons r.values
          · rw [List.filter_cons_of_neg hl]
            exact hsub.cons r.values
      · rw [List.filter_cons_of_neg (by simpa using hw), List.filter_cons_of_neg (mt hage hw)]
        exact ⟨young, hrun, hsub⟩

theorem length_young {young : List Row} (h : youngRows later t times = .ok young)
    (hlen : times.length = t.rows.length) :
    young.length = times.countP (WithinTtl t.ttlSeconds · later) := by
  have hzip : (t.rows.zip times).map (·.2) = times := List.map_snd_zip hlen.le
  rw [← (Outcome.mapM_eq_ok.mp h).length_eq, ← List.countP_eq_length_filter]
  conv => rhs; rw [← hzip, List.countP_map]
  rfl

end Seen

section Statement

variable [FloatLib] {ex ex' : Executor} {rows : Bytes → List Record} {now : Int64} {sql : Bytes}
  {r : QueryResult}

/-- A text that fits the log brings in no name a snapshot cannot hold. -/
theorem NamedTables.executeSql (h : NamedTables ex.tables) (hst : Stocked ex rows)
    (hlen : sql.length ≤ WALRecord.maxPayload) (hrun : ex.executeSql now sql = .ok (ex', r)) :
    NamedTables ex'.tables := by
  obtain ⟨res, hparse, hrun⟩ := Outcome.bind_eq_ok.mp hrun
  cases res with
  | error e =>
      obtain ⟨rfl, -⟩ := Prod.mk.inj (Except.ok.inj hrun)
      exact h
  | ok stmt =>
      cases stmt with
      | createTable stmt =>
          obtain ⟨hname, hcols⟩ := createTable_names hparse
          rcases execCreateTable_cases hrun with ⟨-, rfl⟩ | ⟨-, -, schema, t, hschema, hnew, rfl⟩
          · exact h
          · obtain ⟨pk, -, hk⟩ := Outcome.bind_eq_ok.mp hnew
            have hs : t.schema = schema := by rw [← Except.ok.inj hk]
            refine h.insert ?_ (hs ▸ buildSchema_named hschema (by simp [Schema.empty]) ?_)
            · rw [Bytes.toUpper_length]
              exact Nat.le_trans hname hlen
            · exact fun col hcol => Nat.le_trans (hcols col hcol) hlen
      | insert stmt =>
          rcases execInsert_cases hrun with ⟨-, -, rfl⟩ | ⟨t, t', n, e, hlook, htuples, htables, -⟩
          · exact h
          · obtain ⟨hname, hcols⟩ := h _ t hlook
            obtain ⟨t₂, n₂, e₂, hrun₂, -, hs, -⟩ :=
              (hst.stored _ t hlook).1.insertTuples_taken now stmt.batchValues 0
            obtain ⟨rfl, -⟩ := Prod.mk.inj (Except.ok.inj (htuples.symm.trans hrun₂))
            rw [htables]
            exact h.insert hname (hs ▸ hcols)
      | select stmt =>
          rw [execSelect_tables hrun]
          exact h

/-- A statement that was first executed at `time` is executed at `now`. -/
theorem Timed.executeSql {P : Int64 → Int64 → Prop} {firsts : Bytes → List Int64} {time : Int64}
    (h : Timed P firsts rows) (hst : Stocked ex rows) (hfits : FitsSql sql) (hP : P time now)
    (hrun : ex.executeSql now sql = .ok (ex', r)) :
    Timed P (stamp ex.tables ex'.tables time firsts)
      fun name => rows name ++ birthRecords (born ex now sql) name := by
  intro name
  have hbefore := hst.rowsIn name
  have hafter := (hst.executeSql hfits hrun).rowsIn name
  rw [List.length_append] at hafter
  rw [stamp, hafter, hbefore, Nat.add_sub_cancel_left, ← (h name).length_eq, List.take_length]
  refine List.rel_append (h name) (forall₂_replicate fun rec hrec => ?_)
  obtain ⟨b, hb, rfl⟩ := List.mem_map.mp hrec
  exact ⟨now, b.row, hP, by rw [(born_time (List.mem_of_mem_filter hb)).1]⟩

end Statement

/-! ## The database and its files -/

/-- The snapshot loads, to tables with as many rows as there are times. -/
def Loads (file : Bytes) (saved : Bytes → List Int64) : Prop :=
  ∃ c : Catalog, Named c ∧ (∀ name r, c.lookup name = some r →
      r.rows.length = (saved name).length) ∧
    ∀ now, ∃ lsn m, Snapshot.load now file = .ok (.ok ⟨lsn, m⟩) ∧ MapRel (Loaded now) m c

/-- What holds between the events of a run. -/
structure Held (P : Int64 → Int64 → Prop) (a : Annals) (rows : Bytes → List Record) : Prop where
  dataDir : a.db.dataDir ≠ []
  writer : ∃ w, a.db.walWriter = some w
  stocked : Stocked a.db.executor rows
  named : NamedTables a.db.executor.tables
  timed : Timed P a.firsts rows
  snapshot : ∀ file, a.disk.snapshot = some file → Loads file a.saved

section Saving

variable {P : Int64 → Int64 → Prop} {a : Annals} {rows : Bytes → List Record} {now : Int64}

theorem Held.kept_length (h : Held P a rows) {name : Bytes} {t : Table}
    (ht : a.db.executor.tables.lookup name = some t) :
    (visible now t).rows.length = (a.kept now name).length := by
  have hrep := (h.stocked.stored name t ht).1
  rw [hrep.visible, Annals.kept, ht]
  simp only [survivors, List.length_map]
  exact (length_survivors hrep.rows hrep.fits (h.timed name).length_eq).symm

/-- The file of a snapshot loads. -/
theorem Held.loads (h : Held P a rows) {tables : List (Bytes × Table)} {lsn : UInt64} {file : Bytes}
    (hw : Within a.db) (horder : Enumerates tables a.db.executor.tables)
    (hfile : Snapshot.contents now tables lsn = .ok file) : Loads file (a.kept now) := by
  obtain ⟨c, hc⟩ := exists_visible horder now
  have hsaved : MapRel (Saved now) a.db.executor.tables c := hc.imp fun name t r ht _ hr =>
    hr ▸ (h.stocked.stored name t ht).1.saved (h.named name t ht).1 (h.named name t ht).2
      (hw.rows name t ht) now
  have hcard : tables.length < 2 ^ 32 := by
    rw [Enumerates.length_eq horder]
    exact hw.tables
  obtain ⟨file', hfile', -, hload⟩ := contents_loads hsaved horder hcard lsn
  obtain rfl := Except.ok.inj (hfile.symm.trans hfile')
  refine ⟨c, fun name r hr => ?_, fun name r hr => ?_, fun now' => ?_⟩
  · obtain ⟨t, ht, rfl⟩ := hc.right hr
    exact h.named name t ht
  · obtain ⟨t, ht, rfl⟩ := hc.right hr
    exact h.kept_length ht
  · obtain ⟨m, hm⟩ := hload now'
    exact ⟨lsn, m, hm⟩

theorem Held.takeSnapshot (h : Held P a rows) {fault : Option Snapshot.SaveFault}
    {tables : List (Bytes × Table)} {a' : Annals} (hw : Within a.db)
    (horder : Enumerates tables a.db.executor.tables)
    (hrun : a.snapshot now fault tables = .ok a') : Held P a' rows := by
  obtain ⟨w, hwriter⟩ := h.writer
  obtain ⟨⟨after, e⟩, hsnap, hrun⟩ := Outcome.bind_eq_ok.mp hrun
  rcases takeSnapshot_cases hwriter hsnap with ⟨he, rfl⟩ | ⟨rfl, file, hfile, rfl⟩
  · obtain ⟨e, rfl⟩ := Option.isSome_iff_exists.mp he
    obtain rfl := Except.ok.inj hrun
    exact ⟨h.dataDir, h.writer, h.stocked, h.named, h.timed, h.snapshot⟩
  · obtain rfl := Except.ok.inj hrun
    refine ⟨h.dataDir, h.writer, h.stocked, h.named, h.timed, fun file' hsome => ?_⟩
    obtain rfl := Option.some.inj hsome
    exact h.loads hw horder hfile

theorem Held.dies (h : Held P a rows) {b : Annals} (hdies : a.Dies b) : Held P b rows := by
  cases hdies with
  | crash cut => exact ⟨h.dataDir, h.writer, h.stocked, h.named, h.timed, h.snapshot⟩
  | renamed _ hw horder hsave =>
      obtain ⟨file, hfile, rfl⟩ := saveSnapshot_ok hsave
      refine ⟨h.dataDir, h.writer, h.stocked, h.named, h.timed, fun file' hsome => ?_⟩
      obtain rfl := Option.some.inj hsome
      exact h.loads hw horder hfile

/-- The tables of a database that is being opened, with all rows inserted at
`now`. -/
structure Reopened (now : Int64) (dataDir : Bytes) (db : Database) (firsts : Bytes → List Int64)
    (rows : Bytes → List Record) : Prop where
  dataDir : db.dataDir = dataDir
  stocked : Stocked db.executor rows
  named : NamedTables db.executor.tables
  timed : Timed (fun _ time => time = now) firsts rows

theorem Held.loadSnapshot (h : Held P a rows) {db : Database}
    (hrun : (Database.fresh a.db.dataDir).loadSnapshot now a.disk.snapshot = .ok db) :
    ∃ rows', Reopened now a.db.dataDir db
      (fun name => (a.saved name).take (rowsIn db.executor.tables name)) rows' := by
  cases hsnap : a.disk.snapshot with
  | none =>
      rw [hsnap] at hrun
      obtain rfl := Except.ok.inj hrun
      refine ⟨fun _ => [], rfl, stocked_new, fun name t ht => ?_, fun name => ?_⟩
      · exact absurd ht (by simp [Database.fresh, Executor.new])
      · have hnone : rowsIn (Database.fresh a.db.dataDir).executor.tables name = 0 :=
          stocked_new.rowsIn name
        rw [hnone, List.take_zero]
        exact .nil
  | some file =>
      obtain ⟨c, hnamed, hlen, hload⟩ := h.snapshot file hsnap
      obtain ⟨lsn, m, hm, hrel⟩ := hload now
      have hunion : m ∪ (Database.fresh a.db.dataDir).executor.tables = m := Finmap.union_empty
      rw [hsnap, Database.loadSnapshot, hm, Outcome.bind_ok] at hrun
      obtain rfl := Except.ok.inj hrun
      simp only [hunion]
      have hst : Stocked ⟨m, Executor.new.cache⟩
          fun name => recordsOf defaultTtlSeconds now (relOf c name).rows := by
        refine ⟨stocked_new.cache, fun name t ht => ?_, fun name hnone => ?_⟩
        · obtain ⟨r, hr, hl⟩ := hrel.left ht
          rw [relOf_eq hr]
          exact ⟨hl.stores, hl.ttl⟩
        · rw [relOf, hrel.none_iff.mp hnone]
          rfl
      refine ⟨_, rfl, hst, fun name t ht => ?_, fun name => ?_⟩
      · obtain ⟨r, hr, hl⟩ := hrel.left ht
        rw [hl.schema]
        exact hnamed name r hr
      · rw [hst.rowsIn name, recordsOf, List.length_map]
        have htake : ((a.saved name).take (relOf c name).rows.length).length =
            (relOf c name).rows.length := by
          rw [List.length_take, Nat.min_eq_left]
          cases hc : c.lookup name with
          | none => rw [relOf, hc]; exact Nat.zero_le _
          | some r => rw [relOf_eq hc, hlen name r hc]
        rw [List.forall₂_map_right_iff, List.forall₂_iff_get]
        exact ⟨htake, fun i hi hi' => ⟨now, _, rfl, rfl⟩⟩

end Saving

section Calls

variable [FloatLib] {P : Int64 → Int64 → Prop} {a a' : Annals} {rows : Bytes → List Record}
  {now : Int64}

theorem Held.execute (h : Held P a rows) {sql : Bytes} (hP : P now now) (hsql : Loggable sql)
    (hrun : a.execute now sql = .ok a') : ∃ rows', Held P a' rows' := by
  obtain ⟨w, hwriter⟩ := h.writer
  obtain ⟨⟨after, r⟩, hcall, hrun⟩ := Outcome.bind_eq_ok.mp hrun
  obtain rfl := Except.ok.inj hrun
  obtain ⟨ex, hex, rfl⟩ := execute_ok hcall
  obtain ⟨w', wal, hlog⟩ := log_frame hwriter a.disk sql
  rw [hlog] at hex ⊢
  exact ⟨_, h.dataDir, ⟨w', rfl⟩, h.stocked.executeSql hsql.fits hex,
    h.named.executeSql h.stocked hsql.short hex, h.timed.executeSql h.stocked hsql.fits hP hex,
    h.snapshot⟩

theorem Reopened.replay {dataDir : Bytes} {db db' : Database} {firsts firsts' : Bytes → List Int64}
    {recs : List WALRecord} {logged : List (WALRecord × Int64)} {n n' : Nat}
    (h : Reopened now dataDir db firsts rows) (hrecs : ∀ rec ∈ recs, Loggable rec.sql)
    (hrun : WALReader.replayRecords (Database.replayRecord now) db n recs = .ok (db', n'))
    (htimes : Annals.replay now logged db firsts recs = .ok firsts') :
    ∃ rows', Reopened now dataDir db' firsts' rows' := by
  induction recs generalizing db firsts rows n with
  | nil =>
      obtain ⟨rfl, -⟩ := Prod.mk.inj (Except.ok.inj hrun)
      obtain rfl := Except.ok.inj htimes
      exact ⟨rows, h⟩
  | cons rec recs ih =>
      have hrest : ∀ r ∈ recs, Loggable r.sql := fun r hr => hrecs r (List.mem_cons_of_mem rec hr)
      rw [WALReader.replayRecords, Database.replayRecord] at hrun
      rw [Annals.replay] at htimes
      split at hrun
      · next hskip =>
          rw [if_pos hskip] at htimes
          exact ih h hrest hrun htimes
      · next hlsn =>
          rw [if_neg hlsn] at htimes
          obtain ⟨⟨ex, r⟩, hex, htimes⟩ := Outcome.bind_eq_ok.mp htimes
          simp only [hex, Outcome.bind_ok, if_true] at hrun
          have hsql := hrecs rec List.mem_cons_self
          exact @ih _ { db with executor := ex } _ _
            ⟨h.dataDir, h.stocked.executeSql hsql.fits hex,
              h.named.executeSql h.stocked hsql.short hex,
              h.timed.executeSql h.stocked hsql.fits rfl hex⟩ hrest hrun htimes

/-- The constructor loads the snapshot and replays the log. -/
theorem restart_ok (hdir : a.db.dataDir ≠ []) (hrun : a.restart now = .ok a') :
    ∃ loaded db n firsts,
      (Database.fresh a.db.dataDir).loadSnapshot now a.disk.snapshot = .ok loaded ∧
      WALReader.replayRecords (Database.replayRecord now) loaded 0
        (WALReader.readAll (a.disk.wal.getD [])) = .ok (db, n) ∧
      Annals.replay now a.logged loaded
        (fun name => (a.saved name).take (rowsIn loaded.executor.tables name))
        (WALReader.readAll (a.disk.wal.getD [])) = .ok firsts ∧
      a.comesBack now = .ok firsts ∧ a'.firsts = firsts ∧ a'.clock = now ∧
      a'.saved = a.saved ∧ a'.disk.snapshot = a.disk.snapshot ∧
      a'.db.executor = db.executor ∧ a'.db.dataDir = db.dataDir ∧
      ∃ w, a'.db.walWriter = some w := by
  obtain ⟨⟨db', disk'⟩, hnew, hrun⟩ := Outcome.bind_eq_ok.mp hrun
  obtain ⟨firsts, hback, hrun⟩ := Outcome.bind_eq_ok.mp hrun
  obtain rfl := Except.ok.inj hrun
  obtain ⟨loaded, hload, htimes⟩ := Outcome.bind_eq_ok.mp hback
  have hp : (Database.fresh a.db.dataDir).persistent = true := by
    simp [Database.persistent, Database.fresh, hdir]
  rw [Database.new, if_pos hp] at hnew
  obtain ⟨rdb, hrec, hnew⟩ := Outcome.bind_eq_ok.mp hnew
  obtain ⟨rfl, rfl⟩ := Prod.mk.inj (Except.ok.inj hnew)
  rw [Database.recover, hload, Outcome.bind_ok] at hrec
  cases hwal : a.disk.wal with
  | none =>
      rw [hwal] at hrec htimes
      obtain rfl := Except.ok.inj hrec
      rw [Option.getD_none, readAll_nil] at htimes ⊢
      exact ⟨loaded, loaded, 0, firsts, hload, rfl, htimes, hback, rfl, rfl, rfl, rfl, rfl, rfl,
        _, rfl⟩
  | some file =>
      rw [hwal] at hrec htimes
      obtain ⟨⟨db, n⟩, hreplay, hrec⟩ := Outcome.bind_eq_ok.mp hrec
      obtain rfl := Except.ok.inj hrec
      exact ⟨loaded, db, n, firsts, hload, hreplay, htimes, hback, rfl, rfl, rfl, rfl, rfl, rfl,
        _, rfl⟩

/-- After a restart every row is as if it had just been inserted. -/
theorem Held.restart (h : Held P a rows)
    (hrecs : ∀ rec ∈ WALReader.readAll (a.disk.wal.getD []), Loggable rec.sql)
    (hrun : a.restart now = .ok a') :
    a.comesBack now = .ok a'.firsts ∧ a'.clock = now ∧
      ∃ rows', Held (fun _ time => time = now) a' rows' := by
  obtain ⟨loaded, db, n, firsts, hload, hreplay, htimes, hback, hfirsts, hclock, hsaved, hsnap,
    hex, hdir, hw⟩ := restart_ok h.dataDir hrun
  obtain ⟨rows₁, h₁⟩ := h.loadSnapshot hload
  obtain ⟨rows₂, h₂⟩ := h₁.replay hrecs hreplay htimes
  refine ⟨by rw [hback, hfirsts], hclock, rows₂, ?_, hw, ?_, ?_, ?_, ?_⟩
  · rw [hdir, h₂.dataDir]
    exact h.dataDir
  · rw [hex]
    exact h₂.stocked
  · rw [hex]
    exact h₂.named
  · rw [hfirsts]
    exact h₂.timed
  · rw [hsnap, hsaved]
    exact h.snapshot

end Calls

/-! ## Runs -/

section Runs

variable {a : Annals} {rows : Bytes → List Record} {now : Int64}

theorem Held.of_now {P : Int64 → Int64 → Prop} (h : Held (fun _ time => time = now) a rows)
    (hfirsts : ∀ name, ∀ first ∈ a.firsts name, P first now) : Held P a rows := by
  refine ⟨h.dataDir, h.writer, h.stocked, h.named, fun name => ?_, h.snapshot⟩
  have htimed := h.timed name
  rw [List.forall₂_iff_get] at htimed ⊢
  refine ⟨htimed.1, fun i hi hi' => ?_⟩
  obtain ⟨time, row, rfl, hr⟩ := htimed.2 i hi hi'
  exact ⟨time, row, hfirsts name _ (List.get_mem _ _), hr⟩

/-- Rows that were put into their tables no later than they were first inserted
do not outlive their lifetime. -/
theorem Held.mortal (h : Held (fun first time => time ≤ first ∧ Annals.Ticks time) a rows) :
    a.Mortal := by
  intro name t ht later _
  obtain ⟨hrep, httl⟩ := h.stocked.stored name t ht
  have hage : List.Forall₂ (fun first rec =>
      Record.live later rec = true → WithinTtl t.ttlSeconds first later)
      (a.firsts name) (rows name) := by
    refine (h.timed name).imp fun first rec hrec hlive => ?_
    obtain ⟨time, row, ⟨hle, hticks⟩, rfl⟩ := hrec
    rw [recordOf_live_iff (.inr hticks.1)] at hlive
    rw [Int64.le_iff_toInt_le] at hle
    rw [httl]
    rcases hlive with hzero | hlive
    · exact .inl hzero
    · exact .inr (by omega)
  obtain ⟨young, hyoung, hsub⟩ := mapM_young hrep.rows hrep.fits hage
  refine ⟨young, hyoung, ⟨_, hrep.scanAll later, hsub⟩, fun op v => ?_⟩
  obtain ⟨shown, hrun, hshown⟩ := hrep.indexRange_returns later op v
  exact ⟨shown, hrun, fun row hrow => hsub.subset (hshown row hrow)⟩

/-- Where all rows were inserted just now, and none outlives its lifetime, none
was inserted before. -/
theorem Held.young_of_mortal (h : Held (fun _ time => time = now) a rows) (hclock : a.clock = now)
    (hticks : Annals.Ticks now) (hmortal : a.Mortal) (name : Bytes) :
    ∀ first ∈ a.firsts name, now ≤ first := by
  have htimed := h.timed name
  cases ht : a.db.executor.tables.lookup name with
  | none =>
      rw [h.stocked.absent name ht, List.forall₂_nil_right_iff] at htimed
      rw [htimed]
      exact fun first hfirst => absurd hfirst List.not_mem_nil
  | some t =>
      obtain ⟨hrep, httl⟩ := h.stocked.stored name t ht
      -- the last second in which the rows are seen
      have hlater : (expiryAt defaultTtlSeconds now).toInt =
          now.toInt + defaultTtlSeconds.toNat := by
        rw [expiryAt, if_pos (by decide), Int64.toInt_add, ttl_toInt]
        exact Int.bmod_eq_of_le (by have := hticks.1; omega) (by have := hticks.2; omega)
      have hle : a.clock ≤ expiryAt defaultTtlSeconds now := by
        rw [hclock, Int64.le_iff_toInt_le]
        omega
      obtain ⟨young, hyoung, ⟨shown, hscan, hsub⟩, -⟩ := hmortal name t ht _ hle
      have hall : ∀ rec ∈ rows name, rec.live (expiryAt defaultTtlSeconds now) = true := by
        intro rec hrec
        obtain ⟨i, hi, rfl⟩ := List.getElem_of_mem hrec
        obtain ⟨time, row, rfl, hr⟩ := htimed.get (htimed.length_eq ▸ hi) hi
        have hr : (rows name)[i] = recordOf defaultTtlSeconds (time, row) := hr
        rw [hr, recordOf_live_iff (.inr hticks.1)]
        exact .inr hlater.le
      rw [hrep.scanAll, List.filter_eq_self.mpr hall] at hscan
      obtain rfl := Except.ok.inj hscan
      have hlen := hsub.length_le
      rw [List.length_map, length_young hyoung (htimed.length_eq.trans hrep.rows.length_eq.symm),
        ← htimed.length_eq] at hlen
      have hcount := List.countP_eq_length.mp (Nat.le_antisymm List.countP_le_length hlen)
      intro first hfirst
      have hw := of_decide_eq_true (hcount first hfirst)
      rw [Int64.le_iff_toInt_le]
      rcases hw with hzero | hw
      · exact absurd (httl.symm.trans hzero) (by decide)
      · rw [httl] at hw
        omega

/-- A load does not know the lifetime of a table. -/
theorem load_ttl {file : Bytes} {res : Snapshot.LoadResult}
    (h : Snapshot.load now file = .ok (.ok res)) :
    ∀ name t, res.tables.lookup name = some t → t.ttlSeconds = defaultTtlSeconds := by
  refine load_keeps (fun name cols t hnew => ?_) (fun t row t' e ht hins => ?_) h
  · obtain ⟨pk, -, hk⟩ := Outcome.bind_eq_ok.mp hnew
    rw [← Except.ok.inj hk]
  · rcases insert_cases hins with ⟨-, rfl, -⟩ | ⟨-, -, -, -, -, -, httl⟩
    · exact ht
    · exact httl.trans ht

variable [FloatLib] {dataDir : Bytes} {Back : Annals → Int64 → Prop} {P : Int64 → Int64 → Prop}

/-- What a run keeps: `P` has to hold of a row that is inserted, and of the rows
that a restart brings back. -/
theorem reached_held (hP : ∀ now, Annals.Ticks now → P now now)
    (hback : ∀ a now firsts, Back a now → Annals.Ticks now → a.comesBack now = .ok firsts →
      ∀ name, ∀ first ∈ firsts name, P first now)
    (h : Annals.Reached dataDir Back a) : ∃ rows, Held P a rows := by
  induction h with
  | opened hdir hnew =>
      obtain rfl := Except.ok.inj ((new_empty hdir _).symm.trans hnew)
      exact ⟨fun _ => [], hdir, ⟨_, rfl⟩, stocked_new, fun name t ht => absurd ht (by
        simp [opened, Database.fresh, Executor.new]), fun _ => .nil, nofun⟩
  | execute _ _ hticks hsql hrun ih =>
      obtain ⟨rows, h⟩ := ih
      exact h.execute (hP _ hticks) hsql hrun
  | snapshot _ _ hw horder hrun ih =>
      obtain ⟨rows, h⟩ := ih
      exact ⟨rows, h.takeSnapshot hw horder hrun⟩
  | restart _ hdies _ hticks hrecs hyoung hrun ih =>
      obtain ⟨rows, h⟩ := ih
      obtain ⟨hcomes, -, rows', h'⟩ := (h.dies hdies).restart hrecs hrun
      exact ⟨rows', h'.of_now (hback _ _ _ hyoung hticks hcomes)⟩

theorem replay_times {db : Database} {start firsts : Bytes → List Int64} {recs : List WALRecord}
    {logged : List (WALRecord × Int64)} (hlogged : ∀ e ∈ logged, now ≤ e.2)
    (hstart : ∀ name, ∀ time ∈ start name, now ≤ time)
    (h : Annals.replay now logged db start recs = .ok firsts) :
    ∀ name, ∀ time ∈ firsts name, now ≤ time := by
  induction recs generalizing db start with
  | nil =>
      obtain rfl := Except.ok.inj h
      exact hstart
  | cons rec recs ih =>
      rw [Annals.replay] at h
      split at h
      · exact ih hstart h
      · obtain ⟨⟨ex, r⟩, -, h⟩ := Outcome.bind_eq_ok.mp h
        refine ih (fun name time htime => ?_) h
        rcases List.mem_append.mp htime with htime | htime
        · exact hstart name time (List.mem_of_mem_take htime)
        · rw [List.eq_of_mem_replicate htime, firstRun]
          split
          · next e hfind => exact hlogged e (List.mem_of_find?_eq_some hfind)
          · exact Int64.le_refl now

/-- It is enough that all that is on the disk is of this second. -/
theorem young_of_times (hlogged : ∀ e ∈ a.logged, now ≤ e.2)
    (hsaved : ∀ name, ∀ time ∈ a.saved name, now ≤ time) : a.Young now := by
  intro firsts hback
  obtain ⟨db, -, hreplay⟩ := Outcome.bind_eq_ok.mp hback
  exact replay_times hlogged
    (fun name time htime => hsaved name time (List.mem_of_mem_take htime)) hreplay

/-- No row outlives its lifetime in a run in which every restart brings back
rows of the same second only; a restart that brings back others gives them
another lifetime. A lifetime of zero, which is for ever, does not come back. -/
theorem lifetimes_survive_iff (dataDir : Bytes) :
    (∀ a, Annals.Reached dataDir Annals.Young a → a.Mortal) ∧
    (∀ a b a' now, Annals.Reached dataDir (fun _ _ => True) a → a.Dies b → b.clock ≤ now →
      Annals.Ticks now → (∀ rec ∈ WALReader.readAll (b.disk.wal.getD []), Loggable rec.sql) →
      b.restart now = .ok a' → (a'.Mortal ↔ b.Young now)) ∧
    ∀ now fault path tables lsn file, Snapshot.save now fault path tables lsn = .ok (.ok file) →
      ∀ now' res, Snapshot.load now' file = .ok (.ok res) →
        ((∀ p ∈ tables, ∀ t', res.tables.lookup p.1 = some t' →
            p.2.ttlSeconds = 0 → t'.ttlSeconds = 0) ↔
          ∀ p ∈ tables, (res.tables.lookup p.1).isSome → p.2.ttlSeconds ≠ 0) := by
  refine ⟨fun a h => ?_, fun a b a' now h hdies _ hticks hrecs hrun => ?_,
    fun now fault path tables lsn file _ now' res hload => ?_⟩
  · obtain ⟨rows, hheld⟩ := reached_held
      (P := fun first time => time ≤ first ∧ Annals.Ticks time)
      (fun now hticks => ⟨Int64.le_refl now, hticks⟩)
      (fun a now firsts hyoung hticks hback name first hfirst =>
        ⟨hyoung firsts hback name first hfirst, hticks⟩) h
    exact hheld.mortal
  · obtain ⟨rows, hheld⟩ := reached_held (P := fun _ _ => True) (fun _ _ => trivial)
      (fun _ _ _ _ _ _ _ _ _ => trivial) h
    obtain ⟨hback, hclock, rows', hheld'⟩ := (hheld.dies hdies).restart hrecs hrun
    constructor
    · intro hmortal firsts hfirsts
      obtain rfl := Except.ok.inj (hback.symm.trans hfirsts)
      exact hheld'.young_of_mortal hclock hticks hmortal
    · intro hyoung
      exact (hheld'.of_now fun name first hfirst =>
        ⟨hyoung _ hback name first hfirst, hticks⟩).mortal
  · have httl := load_ttl hload
    constructor
    · intro hkeep p hp hsome hzero
      obtain ⟨t', ht'⟩ := Option.isSome_iff_exists.mp hsome
      exact absurd ((httl _ t' ht').symm.trans (hkeep p hp t' ht' hzero)) (by decide)
    · intro hnone p hp t' ht' hzero
      exact absurd hzero (hnone p hp (Option.isSome_iff_exists.mpr ⟨t', ht'⟩))

end Runs

section Examples

attribute [local instance] noDoubles

/-- The database before anything was executed. -/
def unwritten (s : Database × Disk) (now : Int64) : Annals :=
  ⟨s.1, s.2, now, fun _ => [], fun _ => [], []⟩

/-- The process crashed and lost nothing. -/
def crashed (a : Annals) : Annals :=
  { a with disk := { a.disk with wal := a.disk.wal.map (·.take 1000) } }

/-- A row is inserted at 100, which leads to `a`. From there the database is
opened again in the same second, with the table `t`, and at 1000, with `u`. -/
structure Reopenings (a b c : Annals) (t u : Table) : Prop where
  reached : ∀ Back, Annals.Reached (Bytes.lit "d") Back a
  clock : a.clock = 100
  saved : a.saved = fun _ => []
  logged : ∀ e ∈ a.logged, 100 ≤ e.2
  texts : (WALReader.readAll ((crashed a).disk.wal.getD [])).map (·.sql) =
    [Bytes.lit "CREATE TABLE t (id INT)", Bytes.lit "INSERT INTO t VALUES (1)"]
  soon : (crashed a).restart 100 = .ok b ∧ b.firsts (Bytes.lit "T") = [100] ∧
    b.db.executor.tables.lookup (Bytes.lit "T") = some t
  late : (crashed a).restart 1000 = .ok c ∧ c.clock = 1000 ∧ c.firsts (Bytes.lit "T") = [100] ∧
    c.db.executor.tables.lookup (Bytes.lit "T") = some u ∧ u.ttlSeconds = 3600
  shown : t.scanAll 3700 = .ok [[.int 1]] ∧ t.scanAll 3701 = .ok []
  renewed : u.scanAll 4000 = .ok [[.int 1]] ∧
    u.indexRange 4000 .eq (.int 1) [] = .ok [[.int 1]] ∧ youngRows 4000 u [100] = .ok []

theorem reopened_reached {s : Database × Disk} {a₁ a₂ : Annals}
    (hopen : Database.new (Bytes.lit "d") 100 Disk.empty = .ok s)
    (hcreate : (unwritten s 100).execute 100 (Bytes.lit "CREATE TABLE t (id INT)") = .ok a₁)
    (hinsert : a₁.execute 100 (Bytes.lit "INSERT INTO t VALUES (1)") = .ok a₂)
    (Back : Annals → Int64 → Prop) :
    Annals.Reached (Bytes.lit "d") Back a₂ ∧ a₂.clock = 100 ∧ a₂.saved = fun _ => [] := by
  have hticks : Annals.Ticks 100 := ⟨by decide, by decide⟩
  have h₁ : a₁.clock = 100 ∧ a₁.saved = fun _ => [] := by
    obtain ⟨_, -, hk⟩ := Outcome.bind_eq_ok.mp hcreate
    rw [← Except.ok.inj hk]
    exact ⟨rfl, rfl⟩
  have h₂ : a₂.clock = 100 ∧ a₂.saved = a₁.saved := by
    obtain ⟨_, -, hk⟩ := Outcome.bind_eq_ok.mp hinsert
    rw [← Except.ok.inj hk]
    exact ⟨rfl, rfl⟩
  have hopened : Annals.Reached (Bytes.lit "d") Back (unwritten s 100) := .opened (by decide) hopen
  refine ⟨(hopened.execute (Int64.le_refl 100) hticks loggable_create hcreate).execute ?_ hticks
    loggable_insert hinsert, h₂.1, h₂.2.trans h₁.2⟩
  rw [h₁.1]
  exact Int64.le_refl 100

set_option synthInstance.maxSize 1000 in
theorem reopenings_run : ∃ a b c t u, Reopenings a b c t u := by
  have hrun : (do
      let s ← Database.new (Bytes.lit "d") 100 Disk.empty
      let a₁ ← (unwritten s 100).execute 100 (Bytes.lit "CREATE TABLE t (id INT)")
      let a ← a₁.execute 100 (Bytes.lit "INSERT INTO t VALUES (1)")
      let b ← (crashed a).restart 100
      let c ← (crashed a).restart 1000
      let t ← Executor.cell (b.db.executor.tables.lookup (Bytes.lit "T")).toList 0
      let u ← Executor.cell (c.db.executor.tables.lookup (Bytes.lit "T")).toList 0
      .ok (decide ((WALReader.readAll ((crashed a).disk.wal.getD [])).map (·.sql) =
          [Bytes.lit "CREATE TABLE t (id INT)", Bytes.lit "INSERT INTO t VALUES (1)"] ∧
          (∀ e ∈ a.logged, 100 ≤ e.2) ∧ b.firsts (Bytes.lit "T") = [100] ∧ c.clock = 1000 ∧
          c.firsts (Bytes.lit "T") = [100] ∧ u.ttlSeconds = 3600),
        decide ((t.scanAll 3700 = .ok [[.int 1]] ∧ t.scanAll 3701 = .ok []) ∧
          u.scanAll 4000 = .ok [[.int 1]] ∧
          u.indexRange 4000 .eq (.int 1) [] = .ok [[.int 1]] ∧ youngRows 4000 u [100] = .ok []))
        : Outcome _) = .ok (true, true) := by decide +kernel
  obtain ⟨s, hopen, hrun⟩ := Outcome.bind_eq_ok.mp hrun
  obtain ⟨a₁, hcreate, hrun⟩ := Outcome.bind_eq_ok.mp hrun
  obtain ⟨a, hinsert, hrun⟩ := Outcome.bind_eq_ok.mp hrun
  obtain ⟨b, hsoon, hrun⟩ := Outcome.bind_eq_ok.mp hrun
  obtain ⟨c, hlate, hrun⟩ := Outcome.bind_eq_ok.mp hrun
  obtain ⟨t, ht, hrun⟩ := Outcome.bind_eq_ok.mp hrun
  obtain ⟨u, hu, hrun⟩ := Outcome.bind_eq_ok.mp hrun
  simp only [Except.ok.injEq, Prod.mk.injEq, decide_eq_true_eq] at hrun
  obtain ⟨⟨htexts, hlogged, hfirsts, hclock, hfirsts', httl⟩, hshown, hrenewed⟩ := hrun
  have hreach := reopened_reached hopen hcreate hinsert
  exact ⟨a, b, c, t, u, fun Back => (hreach Back).1, (hreach fun _ _ => True).2.1,
    (hreach fun _ _ => True).2.2, hlogged, htexts, ⟨hsoon, hfirsts, cell_toList ht⟩,
    ⟨hlate, hclock, hfirsts', cell_toList hu, httl⟩, hshown, hrenewed⟩

/-- In the same second. -/
theorem lifetimes_survive_iff_second : ∃ a t,
    Annals.Reached (Bytes.lit "d") Annals.Young a ∧ a.Mortal ∧
    a.db.executor.tables.lookup (Bytes.lit "T") = some t ∧ a.firsts (Bytes.lit "T") = [100] ∧
    t.scanAll 3700 = .ok [[.int 1]] ∧ t.scanAll 3701 = .ok [] := by
  obtain ⟨a, b, c, t, u, h⟩ := reopenings_run
  obtain ⟨hrestart, hfirsts, ht⟩ := h.soon
  have hlogs : ∀ rec ∈ WALReader.readAll ((crashed a).disk.wal.getD []), Loggable rec.sql := by
    intro rec hrec
    have hmem := List.mem_map_of_mem (f := (·.sql)) hrec
    rw [h.texts, List.mem_pair] at hmem
    rcases hmem with hsql | hsql
    · exact hsql ▸ loggable_create
    · exact hsql ▸ loggable_insert
  have hyoung : (crashed a).Young 100 := by
    refine young_of_times h.logged fun name time htime => ?_
    rw [show (crashed a).saved = a.saved from rfl, h.saved] at htime
    exact absurd htime List.not_mem_nil
  have hreach : Annals.Reached (Bytes.lit "d") Annals.Young b :=
    (h.reached Annals.Young).restart (.crash a 1000) (h.clock ▸ Int64.le_refl 100)
      ⟨by decide, by decide⟩ hlogs hyoung hrestart
  exact ⟨b, t, hreach, (lifetimes_survive_iff (Bytes.lit "d")).1 b hreach, ht, hfirsts, h.shown⟩

/-- At 1000 the row of 100 comes back for another hour, so it is seen at 4000.
And a table for ever becomes one for an hour. -/
theorem restart_renews_lifetime :
    (∃ a b a' t, Annals.Reached (Bytes.lit "d") (fun _ _ => True) a ∧ a.Dies b ∧ b.clock ≤ 1000 ∧
      b.restart 1000 = .ok a' ∧ a'.db.executor.tables.lookup (Bytes.lit "T") = some t ∧
      a'.firsts (Bytes.lit "T") = [100] ∧ t.ttlSeconds = 3600 ∧
      t.scanAll 4000 = .ok [[.int 1]] ∧ t.indexRange 4000 .eq (.int 1) [] = .ok [[.int 1]] ∧
      ¬ a'.Mortal) ∧
    ∃ t file res t', Table.new (Bytes.lit "T") pairSchema 0 = .ok t ∧
      Snapshot.save 0 none (Bytes.lit "p") [(Bytes.lit "T", t)] 0 = .ok (.ok file) ∧
      Snapshot.load 0 file = .ok (.ok res) ∧ res.tables.lookup (Bytes.lit "T") = some t' ∧
      t.ttlSeconds = 0 ∧ t'.ttlSeconds = 3600 := by
  have hload : (do
      let t ← Table.new (Bytes.lit "T") pairSchema 0
      let saved ← Snapshot.save 0 none (Bytes.lit "p") [(Bytes.lit "T", t)] 0
      let file ← Executor.cell saved.toOption.toList 0
      let loaded ← Snapshot.load 0 file
      let res ← Executor.cell loaded.toOption.toList 0
      .ok (t.ttlSeconds, (res.tables.lookup (Bytes.lit "T")).map (·.ttlSeconds)) : Outcome _) =
        .ok (0, some 3600) := by decide +kernel
  constructor
  · obtain ⟨a, b, c, t, u, h⟩ := reopenings_run
    obtain ⟨hrestart, hclock, hfirsts, hu, httl⟩ := h.late
    obtain ⟨hshown, hranged, hyoung⟩ := h.renewed
    have hbefore : (crashed a).clock ≤ 1000 := by
      rw [show (crashed a).clock = a.clock from rfl, h.clock]
      decide
    refine ⟨a, crashed a, c, u, h.reached _, .crash a 1000, hbefore, hrestart, hu, hfirsts, httl,
      hshown, hranged, fun hmortal => ?_⟩
    obtain ⟨young, hyoung', ⟨rows, hrows, hsub⟩, -⟩ :=
      hmortal _ u hu 4000 (by rw [hclock]; decide)
    rw [hfirsts, hyoung] at hyoung'
    obtain rfl := Except.ok.inj hyoung'
    obtain rfl := Except.ok.inj (hshown.symm.trans hrows)
    exact absurd (List.sublist_nil.mp hsub) (by simp)
  · obtain ⟨t, hnew, hload⟩ := Outcome.bind_eq_ok.mp hload
    obtain ⟨saved, hsave, hload⟩ := Outcome.bind_eq_ok.mp hload
    obtain ⟨file, hfile, hload⟩ := Outcome.bind_eq_ok.mp hload
    obtain ⟨loaded, hloaded, hload⟩ := Outcome.bind_eq_ok.mp hload
    obtain ⟨res, hres, hload⟩ := Outcome.bind_eq_ok.mp hload
    obtain ⟨hzero, hsome⟩ := Prod.mk.inj (Except.ok.inj hload)
    obtain ⟨t', ht', httl⟩ := Option.map_eq_some_iff.mp hsome
    rw [toOption_eq_some (cell_toList hfile)] at hsave
    rw [toOption_eq_some (cell_toList hres)] at hloaded
    exact ⟨t, file, res, t', hnew, hsave, hloaded, ht', hzero, httl⟩

end Examples

end FlexQL.Proofs
