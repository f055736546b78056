import FlexQL.Proofs.Executor
import FlexQL.Proofs.Grammar
import FlexQL.Proofs.Wal
import FlexQL.Spec.Host

/-!
# Writes over the network do not last

The server executes what it is sent without the database, so the log never
hears of it: a crash takes the process back to the tables it was opened with.
A write that succeeds makes a table that was not among these, or has more rows
in it than these have.
-/

namespace FlexQL.Proofs

open Lib FlexQL.Ref FlexQL.Spec

/-! ## Tables that grow -/

/-- No table is gone, and none has fewer rows. -/
def MoreRows (m m' : Finmap fun _ : Bytes => Table) : Prop :=
  ∀ name t, m.lookup name = some t →
    ∃ t', m'.lookup name = some t' ∧ t.rows.length ≤ t'.rows.length

section Growth

variable {m m' m'' : Finmap fun _ : Bytes => Table}

theorem MoreRows.refl (m : Finmap fun _ : Bytes => Table) : MoreRows m m :=
  fun _ t ht => ⟨t, ht, Nat.le_refl _⟩

theorem MoreRows.trans (h : MoreRows m m') (h' : MoreRows m' m'') : MoreRows m m'' := by
  intro name t ht
  obtain ⟨t₁, ht₁, hle⟩ := h name t ht
  obtain ⟨t₂, ht₂, hle'⟩ := h' name t₁ ht₁
  exact ⟨t₂, ht₂, hle.trans hle'⟩

theorem moreRows_insert {name : Bytes} {t' : Table}
    (h : ∀ t, m.lookup name = some t → t.rows.length ≤ t'.rows.length) :
    MoreRows m (m.insert name t') := by
  intro name' t ht
  by_cases hn : name' = name
  · rw [hn] at ht ⊢
    exact ⟨t', Finmap.lookup_insert _, h t ht⟩
  · rw [Finmap.lookup_insert_of_ne _ hn]
    exact ⟨t, ht, Nat.le_refl _⟩

end Growth

theorem batchValues_ne_nil {sql : Bytes} {stmt : InsertStmt}
    (h : parseSql sql = .ok (.ok (.insert stmt))) : stmt.batchValues ≠ [] := by
  obtain ⟨ts, hparse⟩ := parseSql_ok h
  obtain ⟨⟨ts', hstmt, -⟩, -⟩ := reading_of_parse hparse
  cases hstmt with
  | insert _ _ _ _ _ hrows => cases hrows <;> simp

section Statements

variable [FloatLib] {ex ex' : Executor} {now : Int64} {sql : Bytes} {r : QueryResult}

theorem executeSql_moreRows (h : ex.executeSql now sql = .ok (ex', r)) :
    MoreRows ex.tables ex'.tables := by
  obtain ⟨res, -, h⟩ := Outcome.bind_eq_ok.mp h
  cases res with
  | error e =>
      obtain ⟨rfl, -⟩ := Prod.mk.inj (Except.ok.inj h)
      exact .refl _
  | ok stmt =>
      cases stmt with
      | createTable stmt =>
          rcases execCreateTable_cases h with ⟨-, rfl⟩ | ⟨-, hnone, schema, t, -, -, rfl⟩
          · exact .refl _
          · exact moreRows_insert fun t' ht' => absurd (hnone.symm.trans ht') (by simp)
      | select stmt =>
          rw [execSelect_tables h]
          exact .refl _
      | insert stmt =>
          rcases execInsert_cases h with ⟨-, -, rfl⟩ | ⟨t, t', n, e, hlook, htuples, htables, -⟩
          · exact .refl _
          · rw [htables]
            refine moreRows_insert fun t₀ ht₀ => ?_
            obtain rfl := Option.some.inj (hlook.symm.trans ht₀)
            exact (insertTuples_cases htuples).2.1

theorem attempt_moreRows {result : Option QueryResult}
    (h : TCPServer.attempt ex now sql = .ok (ex', result)) : MoreRows ex.tables ex'.tables := by
  rw [TCPServer.attempt] at h
  split at h
  · next hrun =>
      obtain ⟨rfl, -⟩ := Prod.mk.inj (Except.ok.inj h)
      exact executeSql_moreRows hrun
  · obtain ⟨rfl, -⟩ := Prod.mk.inj (Except.ok.inj h)
    exact .refl _
  · exact absurd h (by simp)

/-- A round executes a text, or leaves the executor alone. -/
theorem round_executor {s s' : Connection} {fails : Option Nat} {response : Option Bytes}
    (h : TCPServer.round s now fails = .ok (s', response)) :
    s'.executor = s.executor ∨
      ∃ sql result, TCPServer.attempt s.executor now sql = .ok (s'.executor, result) := by
  rw [TCPServer.round] at h
  split at h
  · obtain ⟨rfl, -⟩ := Prod.mk.inj (Except.ok.inj h)
    exact .inl rfl
  · obtain ⟨rfl, -⟩ := Prod.mk.inj (Except.ok.inj h)
    exact .inl rfl
  · next query rest hrecv =>
      split at h
      · obtain ⟨rfl, -⟩ := Prod.mk.inj (Except.ok.inj h)
        exact .inl rfl
      · split at h
        · obtain ⟨rfl, -⟩ := Prod.mk.inj (Except.ok.inj h)
          exact .inl rfl
        · obtain ⟨⟨ex', result⟩, hrun, h⟩ := Outcome.bind_eq_ok.mp h
          refine .inr ⟨TCPServer.trim query, result, ?_⟩
          cases result with
          | none =>
              obtain ⟨rfl, -⟩ := Prod.mk.inj (Except.ok.inj h)
              exact hrun
          | some result =>
              obtain ⟨rfl, -⟩ := Prod.mk.inj (Except.ok.inj h)
              exact hrun

theorem serve_moreRows {s s' : Connection} {e : ServerEvent} {response : Option Bytes}
    (h : serve s e = .ok (s', response)) : MoreRows s.executor.tables s'.executor.tables := by
  cases e with
  | arrive bytes =>
      obtain ⟨rfl, -⟩ := Prod.mk.inj (Except.ok.inj h)
      exact .refl _
  | other now sql =>
      obtain ⟨⟨ex, result⟩, hrun, h⟩ := Outcome.bind_eq_ok.mp h
      obtain ⟨rfl, -⟩ := Prod.mk.inj (Except.ok.inj h)
      exact attempt_moreRows hrun
  | round now fails =>
      rw [serve] at h
      split at h
      · rcases round_executor h with hsame | ⟨sql, result, hrun⟩
        · rw [hsame]
          exact .refl _
        · exact attempt_moreRows hrun
      · obtain ⟨rfl, -⟩ := Prod.mk.inj (Except.ok.inj h)
        exact .refl _

/-- A write that goes through succeeds, and leaves a table that was not there
or has more rows than before. -/
theorem writable_writes (hw : Writable ex sql) (h : ex.executeSql now sql = .ok (ex', r)) :
    r.success = true ∧ ∃ name t', writes sql = some name ∧ ex'.tables.lookup name = some t' ∧
      ∀ t, ex.tables.lookup name = some t → t.rows.length < t'.rows.length := by
  obtain ⟨res, hparse, h⟩ := Outcome.bind_eq_ok.mp h
  rcases hw with ⟨stmt, schema, hstmt, hnone, hschema⟩ | ⟨stmt, t, hstmt, hlook, hadmits⟩
  · obtain rfl := Except.ok.inj (hparse.symm.trans hstmt)
    rcases execCreateTable_cases h with ⟨hfail, -⟩ | ⟨hok, -, schema', t', -, -, rfl⟩
    · simp only [Executor.execute, Executor.execCreateTable, hnone, hschema, Option.isSome_none,
        Bool.false_eq_true, if_false] at h
      obtain ⟨t, -, h⟩ := Outcome.bind_eq_ok.mp h
      obtain ⟨-, rfl⟩ := Prod.mk.inj (Except.ok.inj h)
      exact absurd hfail (by simp [QueryResult.done])
    · refine ⟨hok, _, t', by rw [writes, hparse], Finmap.lookup_insert _, fun t ht => ?_⟩
      exact absurd (hnone.symm.trans ht) (by simp)
  · obtain rfl := Except.ok.inj (hparse.symm.trans hstmt)
    rcases execInsert_cases h with ⟨hnone, -⟩ | ⟨t₀, t', n, e, hlook₀, htuples, htables, hok⟩
    · exact absurd (hlook.symm.trans hnone) (by simp)
    · obtain rfl := Option.some.inj (hlook.symm.trans hlook₀)
      obtain ⟨hnone, -, hfirst⟩ := insertTuples_cases htuples
      refine ⟨hok.mpr (hnone.mpr hadmits), _, t', by rw [writes, hparse],
        by rw [htables, Finmap.lookup_insert], fun t₁ ht₁ => ?_⟩
      obtain rfl := Option.some.inj (hlook.symm.trans ht₁)
      obtain ⟨rowVals, rest, hbatch⟩ := List.exists_cons_of_ne_nil (batchValues_ne_nil hparse)
      exact (hfirst rowVals rest hbatch).1 (hadmits rowVals (hbatch ▸ List.mem_cons_self))

theorem writable_of_success {name : Bytes} (hw : writes sql = some name)
    (h : ex.executeSql now sql = .ok (ex', r)) (hr : r.success = true) : Writable ex sql := by
  obtain ⟨res, hparse, h⟩ := Outcome.bind_eq_ok.mp h
  rw [writes, hparse] at hw
  cases res with
  | error e => exact absurd hw (by simp)
  | ok stmt =>
      cases stmt with
      | select stmt => exact absurd hw (by simp)
      | createTable stmt =>
          rcases execCreateTable_cases h with ⟨hfail, -⟩ | ⟨-, hnone, schema, t, hschema, -⟩
          · exact absurd (hr.symm.trans hfail) (by simp)
          · exact .inl ⟨stmt, schema, hparse, hnone, hschema⟩
      | insert stmt =>
          rcases execInsert_cases h with ⟨-, hfail, -⟩ | ⟨t, t', n, e, hlook, htuples, -, hok⟩
          · exact absurd (hr.symm.trans hfail) (by simp)
          · exact .inr ⟨stmt, t, hparse, hlook, (insertTuples_cases htuples).1.mp (hok.mp hr)⟩

end Statements

/-! ## The process -/

section Hosts

variable [FloatLib] {dataDir : Bytes} {h h' : Host} {now : Int64} {sql : Bytes}

/-- No event writes to the disk. -/
theorem host_event {e : ServerEvent} {response : Option Bytes}
    (hevent : h.event e = .ok (h', response)) :
    h'.disk = h.disk ∧ MoreRows h.db.executor.tables h'.db.executor.tables := by
  obtain ⟨⟨s, response'⟩, hs, hevent⟩ := Outcome.bind_eq_ok.mp hevent
  obtain ⟨rfl, -⟩ := Prod.mk.inj (Except.ok.inj hevent)
  exact ⟨rfl, serve_moreRows hs⟩

theorem host_run {events : List ServerEvent} {rs : List (Option Bytes)}
    (hrun : Actions.runAll Host.event h events = .ok (h', rs)) :
    h'.disk = h.disk ∧ MoreRows h.db.executor.tables h'.db.executor.tables := by
  refine @Actions.runAll_keeps _ _ _ _ Host.event h h' events rs
    (fun h₁ => h₁.disk = h.disk ∧ MoreRows h.db.executor.tables h₁.db.executor.tables)
    (fun h₁ e h₂ response hsame hevent => ?_) ⟨rfl, .refl _⟩ hrun
  obtain ⟨hdisk, hmore⟩ := host_event hevent
  exact ⟨hdisk.trans hsame.1, hsame.2.trans hmore⟩

/-- A text that is answered has been executed. -/
theorem answered_executed (ha : Answered h now sql h') :
    ∃ r, h.db.executor.executeSql now sql = .ok (h'.db.executor, r) := by
  obtain ⟨query, rest, hrecv, htrim⟩ := ha.taken
  obtain ⟨response, hevent⟩ := ha.sent
  obtain ⟨⟨s, response'⟩, hs, hevent⟩ := Outcome.bind_eq_ok.mp hevent
  obtain ⟨rfl, rfl⟩ := Prod.mk.inj (Except.ok.inj hevent)
  rw [serve] at hs
  split at hs
  · simp only [TCPServer.round, Host.session, hrecv, htrim, List.isEmpty_iff, if_neg ha.filled,
      ha.stays, Bool.false_eq_true, if_false] at hs
    obtain ⟨⟨ex', result⟩, hrun, hs⟩ := Outcome.bind_eq_ok.mp hs
    cases result with
    | none => exact absurd (Prod.mk.inj (Except.ok.inj hs)).2 (by simp)
    | some r =>
        obtain ⟨rfl, -⟩ := Prod.mk.inj (Except.ok.inj hs)
        refine ⟨r, ?_⟩
        rw [TCPServer.attempt] at hrun
        split at hrun
        · next hexec =>
            obtain ⟨rfl, hr⟩ := Prod.mk.inj (Except.ok.inj hrun)
            rw [hexec, Option.some.inj hr]
        · exact absurd (Prod.mk.inj (Except.ok.inj hrun)).2 (by simp)
        · exact absurd hrun (by simp)
  · exact absurd (Prod.mk.inj (Except.ok.inj hs)).2 (by simp)

/-- Recovery at the time of the opening gives the tables of the opening. -/
theorem recover_opened {disk₀ disk : Disk} {db : Database} (hdir : dataDir ≠ [])
    (hopen : Database.new dataDir now disk₀ = .ok (db, disk)) :
    ∃ db', (Database.fresh dataDir).recover now disk = .ok db' ∧ db'.executor = db.executor := by
  have hp : (Database.fresh dataDir).persistent = true := by
    simp [Database.persistent, Database.fresh, hdir]
  rw [Database.new, if_pos hp] at hopen
  obtain ⟨db', hrec, hopen⟩ := Outcome.bind_eq_ok.mp hopen
  obtain ⟨rfl, rfl⟩ := Prod.mk.inj (Except.ok.inj hopen)
  obtain ⟨db₁, hload, hreplay⟩ := Outcome.bind_eq_ok.mp hrec
  cases hwal : disk₀.wal with
  | some file =>
      refine ⟨db', ?_, rfl⟩
      rw [hwal] at hreplay
      rw [Database.recover, hload, Outcome.bind_ok]
      exact hreplay
  | none =>
      rw [hwal] at hreplay
      refine ⟨{ db₁ with recoveredWalRecords := 0 }, ?_, ?_⟩
      · rw [Database.recover, hload, Outcome.bind_ok]
        simp only [Database.replayWal, Option.getD_none, WALReader.replay,
          readAll_nil, WALReader.replayRecords, Outcome.bind_ok]
      · rw [← Except.ok.inj hreplay]

/-- A table with more rows than there were when the database was opened does
not survive. -/
theorem not_survives {disk₀ disk : Disk} {db : Database} (hdir : dataDir ≠ [])
    (hopen : Database.new dataDir now disk₀ = .ok (db, disk)) {name : Bytes} {t : Table}
    (hmore : ∀ t₀, db.executor.tables.lookup name = some t₀ → t₀.rows.length < t.rows.length) :
    ¬ Survives dataDir disk name t := by
  intro hsurvives
  obtain ⟨db', hrec, hsame⟩ := recover_opened hdir hopen
  obtain ⟨db'', t', rows, rows', hrec', hlook, -, hrows, hrows', hsub⟩ := hsurvives now
  obtain rfl := Except.ok.inj (hrec.symm.trans hrec')
  rw [hsame] at hlook
  have hlt := hmore t' hlook
  have hlen := (Outcome.mapM_eq_ok.mp hrows).length_eq
  have hlen' := (Outcome.mapM_eq_ok.mp hrows').length_eq
  have hle := hsub.length_le
  omega

/-- The writes acknowledged in a run of the server survive a crash exactly if
there are none. -/
theorem lasting_iff_readOnly {disk₀ disk : Disk} {db : Database} (hdir : dataDir ≠ [])
    (hopen : Database.new dataDir now disk₀ = .ok (db, disk)) (events : List ServerEvent) :
    Lasting dataDir ⟨db, disk, [], .running⟩ events ↔
      ReadOnly ⟨db, disk, [], .running⟩ events := by
  constructor
  · intro hlast before time rest h₁ h₂ rs sql hsplit hrun hanswered hwritable
    obtain ⟨r, hexec⟩ := answered_executed hanswered
    obtain ⟨hok, name, t, hwrites, hlook, hgrown⟩ := writable_writes hwritable hexec
    obtain ⟨t', hlook', hsurvives⟩ := hlast before time [] rest h₁ h₂ h₂ rs [] sql name hsplit hrun
      ⟨hanswered, hwrites, r, hexec, hok⟩ rfl
    obtain rfl := Option.some.inj (hlook.symm.trans hlook')
    obtain ⟨hdisk, hmore⟩ := host_run hrun
    obtain ⟨response, hsent⟩ := hanswered.sent
    rw [(host_event hsent).1, hdisk] at hsurvives
    refine not_survives hdir hopen (fun t₀ ht₀ => ?_) hsurvives
    obtain ⟨t₁, ht₁, hle⟩ := hmore name t₀ ht₀
    exact Nat.lt_of_le_of_lt hle (hgrown t₁ ht₁)
  · intro hread before time after rest h₁ h₂ h₃ rs₁ rs₂ sql name hsplit hrun hack
    obtain ⟨r, hexec, hok⟩ := hack.success
    exact absurd (writable_of_success hack.writes hexec hok)
      (hread before time (after ++ rest) h₁ h₂ rs₁ sql hsplit hrun hack.answered)

end Hosts

section Runs

attribute [local instance] noDoubles

/-- A client creates a table. -/
def createOnce : List ServerEvent :=
  [.arrive (Wire.frame (Bytes.lit "CREATE TABLE t (id INT)")), .round 0 none]

theorem lasting_iff_readOnly_create : ∃ db disk,
    Database.new (Bytes.lit "d") 0 Disk.empty = .ok (db, disk) ∧
    (Lasting (Bytes.lit "d") ⟨db, disk, [], .running⟩ createOnce ↔
      ReadOnly ⟨db, disk, [], .running⟩ createOnce) := by
  have hopens : (Database.new (Bytes.lit "d") 0 Disk.empty).isOk = true := by decide
  cases hopen : Database.new (Bytes.lit "d") 0 Disk.empty with
  | error fault => rw [hopen] at hopens; exact absurd hopens (by simp [Except.isOk, Except.toBool])
  | ok s => exact ⟨s.1, s.2, rfl, lasting_iff_readOnly (by decide) hopen createOnce⟩

/-- The response has been sent, and recovery knows nothing of the table. -/
theorem created_table_lost : ∃ db disk h rs db',
    Database.new (Bytes.lit "d") 0 Disk.empty = .ok (db, disk) ∧
    Actions.runAll Host.event ⟨db, disk, [], .running⟩ createOnce = .ok (h, rs) ∧
    rs = [none, some (Bytes.lit "Table T created\n")] ∧
    (h.db.executor.tables.lookup (Bytes.lit "T")).isSome = true ∧
    (Database.fresh (Bytes.lit "d")).recover 0 h.disk = .ok db' ∧
    (db'.executor.tables.lookup (Bytes.lit "T")).isSome = false := by
  have hrun : (do
      let s ← Database.new (Bytes.lit "d") 0 Disk.empty
      let x ← Actions.runAll Host.event ⟨s.1, s.2, [], .running⟩ createOnce
      let db' ← (Database.fresh (Bytes.lit "d")).recover 0 x.1.disk
      .ok (x.2, (x.1.db.executor.tables.lookup (Bytes.lit "T")).isSome,
        (db'.executor.tables.lookup (Bytes.lit "T")).isSome) : Outcome _) =
          .ok ([none, some (Bytes.lit "Table T created\n")], true, false) := by
    decide +kernel
  obtain ⟨⟨db, disk⟩, hopen, hrun⟩ := Outcome.bind_eq_ok.mp hrun
  obtain ⟨⟨h, rs⟩, hevents, hrun⟩ := Outcome.bind_eq_ok.mp hrun
  obtain ⟨db', hrec, hrun⟩ := Outcome.bind_eq_ok.mp hrun
  obtain ⟨hrs, hfound⟩ := Prod.mk.inj (Except.ok.inj hrun)
  obtain ⟨hthere, hgone⟩ := Prod.mk.inj hfound
  exact ⟨db, disk, h, rs, db', hopen, hevents, hrs, hthere, hrec, hgone⟩

end Runs

end FlexQL.Proofs
