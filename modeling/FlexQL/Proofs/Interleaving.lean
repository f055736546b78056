import FlexQL.Proofs.Durability
import FlexQL.Proofs.Journal

/-!
# Calls that overlap and what a restart makes of them

As long as no call overtakes another on its table, the tables are what the
executed part of the log makes of them. So when no logged call waits, recovery
rebuilds the tables and answers every logged statement as it was answered.

A snapshot that is saved when no logged call waits holds all of the log, and
the log can be emptied as long as nothing was added to it since.
-/

namespace FlexQL.Proofs

open Lib FlexQL.Ref FlexQL.Spec

/-! ## What a step does -/

section Steps

variable [FloatLib] {s s' : Session} {w : WALWriter} {now : Int64}

theorem step_log {sql : Bytes} (hw : s.db.walWriter = some w) (hdir : s.db.dataDir ≠ [])
    (h : s.step (.log sql) = .ok s') :
    (isMutatingSql sql = false ∧ s' = { s with calls := s.calls ++ [⟨sql, none, none⟩] }) ∨
    (isMutatingSql sql = true ∧ s' = { s with
      db := { s.db with walWriter := some ⟨w.nextLsn + 1⟩ }
      disk := { s.disk with
        wal := some (s.disk.wal.getD [] ++ (WALRecord.mk w.nextLsn sql).encode) }
      calls := s.calls ++ [⟨sql, some w.nextLsn, none⟩] }) := by
  have hp : s.db.persistent = true := by simp [Database.persistent, hdir]
  cases hmut : isMutatingSql sql with
  | false =>
      simp only [Session.step, log_other hmut, Session.recordLsn, hmut, Bool.and_false] at h
      exact .inl ⟨rfl, (Except.ok.inj h).symm⟩
  | true =>
      simp only [Session.step, log_mutating hw hdir hmut, Session.recordLsn, hmut, hp,
        hw] at h
      exact .inr ⟨rfl, (Except.ok.inj h).symm⟩

theorem step_run {i : Nat} (h : s.step (.run now i) = .ok s') : s' = s ∨ ∃ sql lsn ex r,
    s.calls[i]? = some ⟨sql, lsn, none⟩ ∧ s.db.executor.executeSql now sql = .ok (ex, r) ∧
    s' = { s with
      db := { s.db with executor := ex }
      calls := s.calls.set i ⟨sql, lsn, some r.success⟩ } := by
  rw [Session.step] at h
  split at h
  · next sql lsn hk =>
      obtain ⟨⟨db, r⟩, hrun, h⟩ := Outcome.bind_eq_ok.mp h
      obtain ⟨⟨ex, r'⟩, hex, hrun⟩ := Outcome.bind_eq_ok.mp hrun
      obtain ⟨rfl, rfl⟩ := Prod.mk.inj (Except.ok.inj hrun)
      exact .inr ⟨sql, lsn, ex, r', hk, hex, (Except.ok.inj h).symm⟩
  · exact .inl (Except.ok.inj h).symm

theorem step_readLsn (hw : s.db.walWriter = some w) (h : s.step .readLsn = .ok s') :
    s' = s ∨ (s.snapshot = .idle ∧ s' = { s with snapshot := .numbered (w.nextLsn - 1) }) := by
  rw [Session.step] at h
  split at h
  · next hidle =>
      split at h
      · have hlsn : s.db.coveredLsn = w.nextLsn - 1 := by rw [Database.coveredLsn, hw]; rfl
        rw [hlsn] at h
        exact .inr ⟨hidle, (Except.ok.inj h).symm⟩
      · exact .inl (Except.ok.inj h).symm
  · exact .inl (Except.ok.inj h).symm

theorem step_save {fault : Option Snapshot.SaveFault} {tables : List (Bytes × Table)}
    (h : s.step (.save now fault tables) = .ok s') :
    s' = s ∨ ∃ lsn, s.snapshot = .numbered lsn ∧ (s' = { s with snapshot := .idle } ∨
      ∃ file, Snapshot.contents now tables lsn = .ok file ∧ s' = { s with
        db := { s.db with snapshotLsn := lsn }
        disk := { s.disk with snapshot := some file }
        snapshot := .saved }) := by
  rw [Session.step] at h
  split at h
  · next lsn hnum =>
      refine .inr ⟨lsn, hnum, ?_⟩
      obtain ⟨saved, hsave, h⟩ := Outcome.bind_eq_ok.mp h
      cases saved with
      | error e => exact .inl (Except.ok.inj h).symm
      | ok after =>
          obtain ⟨file, hfile, rfl⟩ := saveSnapshot_ok hsave
          exact .inr ⟨file, hfile, (Except.ok.inj h).symm⟩
  · exact .inl (Except.ok.inj h).symm

theorem step_truncate (hw : s.db.walWriter = some w) (h : s.step .truncate = .ok s') :
    s' = s ∨ (s.snapshot = .saved ∧ s' = { s with
      disk := { s.disk with wal := some [] }
      snapshot := .idle }) := by
  rw [Session.step] at h
  split at h
  · next hsaved =>
      refine .inr ⟨hsaved, ?_⟩
      have hdb : s.db.truncateWal s.disk = (s.db, { s.disk with wal := some [] }) := by
        rw [Database.truncateWal]
        simp only [hw, WALWriter.truncate]
        rw [← hw]
      rw [hdb] at h
      exact (Except.ok.inj h).symm
  · exact .inl (Except.ok.inj h).symm

/-- A call of `execute` whose steps are not interrupted. -/
theorem execute_steps (s : Session) (now : Int64) (sql : Bytes) :
    (s.step (.log sql) >>= fun s₁ => s₁.step (.run now s.calls.length))
      = (s.db.execute now s.disk sql).map fun x => { s with
          db := x.1.1
          disk := x.1.2
          calls := s.calls ++ [⟨sql, Session.recordLsn s.db sql, some x.2.success⟩] } := by
  have hk : (s.calls ++ [OpenCall.mk sql (Session.recordLsn s.db sql) none])[s.calls.length]?
      = some ⟨sql, Session.recordLsn s.db sql, none⟩ := List.getElem?_concat_length
  simp only [Session.step, Outcome.bind_ok, hk, Database.execute]
  cases (s.db.log s.disk sql).1.run now sql with
  | error f => rfl
  | ok x =>
      simp only [Outcome.bind_ok, Except.map, List.set_append_right _ _ (Nat.le_refl _),
        Nat.sub_self, List.set_cons_zero]

/-- A call of `take_snapshot` whose steps are not interrupted. -/
theorem takeSnapshot_steps (s : Session) (hidle : s.snapshot = .idle) (now : Int64)
    (fault : Option Snapshot.SaveFault) (tables : List (Bytes × Table)) :
    (do
      let s₁ ← s.step .readLsn
      let s₂ ← s₁.step (.save now fault tables)
      s₂.step .truncate)
      = (s.db.takeSnapshot now fault tables s.disk).map fun x =>
          { s with db := x.1.1, disk := x.1.2 } := by
  obtain ⟨db, disk, calls, snapshot⟩ := s
  obtain rfl : snapshot = .idle := hidle
  rw [Database.takeSnapshot]
  by_cases hp : db.persistent = true
  · simp only [Session.step, hp, if_true, Outcome.bind_ok]
    cases db.saveSnapshot now fault tables db.coveredLsn disk with
    | error f => rfl
    | ok saved =>
        cases saved with
        | error e => rfl
        | ok after => rfl
  · simp only [Session.step, hp]
    rfl

end Steps

/-! ## The invariant -/

/-- The open database stores the catalog `c`, and what did not go to the log
cannot change it. -/
structure Serves (dataDir : Bytes) (s : Session) (w : WALWriter) (c : Catalog) : Prop where
  dir : s.db.dataDir = dataDir
  writer : s.db.walWriter = some w
  tables : Models s.db.executor.tables c
  named : Named c
  queries : ∀ k ∈ s.calls, k.lsn = none → isMutatingSql k.sql = false

/-- What stands behind a session: the snapshot covers `lsn` and holds `c₀`, the
records before the calls lead on to `c₁`, and the calls since the log was last
emptied to `c`. -/
structure View where
  w : WALWriter
  lsn : UInt64
  c₀ : Catalog
  recs : List WALRecord
  c₁ : Catalog
  old : List OpenCall
  new : List OpenCall
  c : Catalog

/-- The records in the log. -/
def View.log (v : View) : List WALRecord := v.recs ++ v.new.filterMap OpenCall.record

section Invariant

variable {dataDir : Bytes} {s : Session} {w : WALWriter} {c : Catalog} {sql : Bytes}

theorem fitsSql_of_other (h : isMutatingSql sql = false) : FitsSql sql := by
  intro stmt _ hparse _
  have hmut := (isMutatingSql_iff hparse).mpr (by simp)
  exact absurd (hmut.symm.trans h) (by simp)

theorem Serves.log_query (h : Serves dataDir s w c) (hmut : isMutatingSql sql = false) :
    Serves dataDir { s with calls := s.calls ++ [⟨sql, none, none⟩] } w c := by
  refine ⟨h.dir, h.writer, h.tables, h.named, fun k hk hlsn => ?_⟩
  rcases List.mem_append.mp hk with hk | hk
  · exact h.queries k hk hlsn
  · rw [List.mem_singleton.mp hk]
    exact hmut

theorem Serves.queries_set (h : Serves dataDir s w c) {i : Nat} {lsn : Option UInt64}
    (hk : s.calls[i]? = some ⟨sql, lsn, none⟩) (ok : Bool) :
    ∀ k ∈ s.calls.set i ⟨sql, lsn, some ok⟩, k.lsn = none → isMutatingSql k.sql = false := by
  intro k hmem hlsn
  rcases List.mem_or_eq_of_mem_set hmem with hmem | rfl
  · exact h.queries k hmem hlsn
  · exact h.queries ⟨sql, lsn, none⟩ (List.mem_of_getElem? hk) hlsn

theorem noneWaiting_append {calls calls' : List OpenCall} (h : NoneWaiting calls)
    (h' : NoneWaiting calls') : NoneWaiting (calls ++ calls') :=
  fun k hk => (List.mem_append.mp hk).elim (h k) (h' k)

theorem noneWaiting_query : NoneWaiting [⟨sql, none, none⟩] := by
  intro k hk hw
  rw [List.mem_singleton.mp hk] at hw
  exact absurd hw.1 (by simp)

/-- A call is found among the old ones or the new ones. -/
theorem split_call {old new : List OpenCall} {i : Nat} {k : OpenCall}
    (h : (old ++ new)[i]? = some k) :
    (∃ pre post, old = pre ++ k :: post ∧
      ∀ k', (old ++ new).set i k' = (pre ++ k' :: post) ++ new) ∨
    ∃ pre post, new = pre ++ k :: post ∧ pre ⊆ (old ++ new).take i ∧
      ∀ k', (old ++ new).set i k' = old ++ (pre ++ k' :: post) := by
  have hsplit : ∀ {l : List OpenCall} {j : Nat}, l[j]? = some k →
      l = l.take j ++ k :: l.drop (j + 1) ∧
        ∀ k', l.set j k' = l.take j ++ k' :: l.drop (j + 1) := by
    intro l j hj
    obtain ⟨hlt, hget⟩ := List.getElem?_eq_some_iff.mp hj
    have hset : ∀ k', l.set j k' = l.take j ++ k' :: l.drop (j + 1) := by
      intro k'
      rw [List.set_eq_take_append_cons_drop, if_pos hlt]
    refine ⟨?_, hset⟩
    rw [← hset, ← hget, List.set_getElem_self]
  by_cases hi : i < old.length
  · rw [List.getElem?_append_left hi] at h
    obtain ⟨hold, hset⟩ := hsplit h
    refine .inl ⟨_, _, hold, fun k' => ?_⟩
    rw [List.set_append_left _ _ hi, hset]
  · have hle : old.length ≤ i := Nat.le_of_not_lt hi
    rw [List.getElem?_append_right hle] at h
    obtain ⟨hnew, hset⟩ := hsplit h
    refine .inr ⟨_, _, hnew, ?_, fun k' => ?_⟩
    · rw [List.take_append]
      exact List.subset_append_right _ _
    · rw [List.set_append_right _ _ hle, hset]

theorem record_answered (pre post : List OpenCall) (k : OpenCall) (ok : Bool) :
    (pre ++ { k with answer := some ok } :: post).filterMap OpenCall.record
      = (pre ++ k :: post).filterMap OpenCall.record := by
  rw [List.filterMap_append, List.filterMap_append]
  rfl

variable [FloatLib] {now : Int64} {ex : Executor} {r : QueryResult} {v : View}

/-- A call that was not logged is executed. -/
theorem Serves.run_query (h : Serves dataDir s w c) {i : Nat}
    (hk : s.calls[i]? = some ⟨sql, none, none⟩)
    (hex : s.db.executor.executeSql now sql = .ok (ex, r)) :
    Serves dataDir { s with
      db := { s.db with executor := ex }
      calls := s.calls.set i ⟨sql, none, some r.success⟩ } w c := by
  have hmut := h.queries _ (List.mem_of_getElem? hk) rfl
  obtain ⟨c', ok, happ, hm, _⟩ := executeSql_models h.tables (fitsSql_of_other hmut) hex
  obtain rfl := apply_other hmut happ
  exact ⟨h.dir, h.writer, hm, h.named, h.queries_set hk r.success⟩

structure Tracked (dataDir : Bytes) (s : Session) (v : View) : Prop
    extends Serves dataDir s v.w v.c where
  calls : s.calls = v.old ++ v.new
  settled : NoneWaiting v.old
  disk : DiskHolds s.disk v.lsn v.c₀ v.log
  before : ∃ oks, v.c₀.applyAll (v.recs.map (·.sql)) = .ok (v.c₁, oks)
  journal : Journal v.c₁ v.new v.c
  numbers : Ordered v.w v.lsn v.log

/-- Between the save and the end of a snapshot. -/
structure AfterSave (dataDir : Bytes) (s : Session) (w : WALWriter) (lsn : UInt64) (c : Catalog)
    (recs : List WALRecord) : Prop extends Serves dataDir s w c where
  settled : NoneWaiting s.calls
  disk : DiskHolds s.disk lsn c recs
  next : lsn < w.nextLsn

/-! ### Calls of `execute` -/

theorem Tracked.log {s' : Session} (h : Tracked dataDir s v) (hdir : dataDir ≠ [])
    (hw : Within s.db) (hlog : Loggable sql) (hstep : s.step (.log sql) = .ok s') :
    ∃ v', Tracked dataDir s' v' ∧ v'.old = v.old ∧ v.w.nextLsn ≤ v'.w.nextLsn := by
  rcases step_log h.writer (by rw [h.dir]; exact hdir) hstep with ⟨hmut, rfl⟩ | ⟨hmut, rfl⟩
  · refine ⟨{ v with new := v.new ++ [⟨sql, none, none⟩] }, ?_, rfl, UInt64.le_refl _⟩
    have hrec : (v.new ++ [OpenCall.mk sql none none]).filterMap OpenCall.record
        = v.new.filterMap OpenCall.record := by
      rw [List.filterMap_append]
      exact List.append_nil _
    refine ⟨h.log_query hmut, ?_, h.settled, ?_, h.before, h.journal.log rfl, ?_⟩
    · show s.calls ++ _ = _
      rw [h.calls, List.append_assoc]
    · rw [View.log, hrec]
      exact h.disk
    · rw [View.log, hrec]
      exact h.numbers
  · have hlsn := hw.lsn v.w h.writer
    refine ⟨{ v with w := ⟨v.w.nextLsn + 1⟩, new := v.new ++ [⟨sql, some v.w.nextLsn, none⟩] }, ?_,
      rfl, ?_⟩
    · have hrec : v.recs ++
          (v.new ++ [OpenCall.mk sql (some v.w.nextLsn) none]).filterMap OpenCall.record
            = v.log ++ [⟨v.w.nextLsn, sql⟩] := by
        rw [List.filterMap_append, View.log, List.append_assoc]
        rfl
      refine ⟨⟨h.dir, rfl, h.tables, h.named, fun k hk hnone => ?_⟩, ?_, h.settled, ?_, h.before,
        h.journal.log rfl, ?_⟩
      · rcases List.mem_append.mp hk with hk | hk
        · exact h.queries k hk hnone
        · rw [List.mem_singleton.mp hk] at hnone
          exact absurd hnone (by simp)
      · show s.calls ++ _ = _
        rw [h.calls, List.append_assoc]
      · rw [View.log, hrec]
        exact h.disk.append ⟨hlog, hmut⟩
      · rw [View.log, hrec]
        exact h.numbers.append hlsn sql
    · show v.w.nextLsn ≤ v.w.nextLsn + 1
      rw [UInt64.le_iff_toNat_le, UInt64.toNat_add, UInt64.toNat_one, Nat.mod_eq_of_lt hlsn]
      exact Nat.le_succ _

/-- A call that was not logged returns. -/
theorem Tracked.run_query {i : Nat} (h : Tracked dataDir s v)
    (hk : s.calls[i]? = some ⟨sql, none, none⟩)
    (hex : s.db.executor.executeSql now sql = .ok (ex, r)) :
    ∃ v', Tracked dataDir { s with
        db := { s.db with executor := ex }
        calls := s.calls.set i ⟨sql, none, some r.success⟩ } v' ∧
      v'.old.length = v.old.length ∧ v'.w = v.w := by
  have hserves := h.toServes.run_query hk hex
  have hset : ∀ {calls : List OpenCall},
      (v.old ++ v.new).set i ⟨sql, none, some r.success⟩ = calls →
      s.calls.set i ⟨sql, none, some r.success⟩ = calls := fun hc => by rw [h.calls, hc]
  rw [h.calls] at hk
  rcases split_call hk with ⟨pre, post, hold, hcalls⟩ | ⟨pre, post, hnew, _, hcalls⟩
  · refine ⟨{ v with old := pre ++ ⟨sql, none, some r.success⟩ :: post }, ?_, ?_, rfl⟩
    · refine ⟨hserves, hset (hcalls _), ?_, h.disk, h.before, h.journal, h.numbers⟩
      have hsettled := h.settled
      rw [hold] at hsettled
      intro k hmem hw
      rcases List.mem_append.mp hmem with hmem | hmem
      · exact hsettled k (List.mem_append_left _ hmem) hw
      · rcases List.mem_cons.mp hmem with rfl | hmem
        · exact absurd hw.1 (by simp)
        · exact hsettled k (List.mem_append_right _ (List.mem_cons_of_mem _ hmem)) hw
    · rw [hold]
      simp
  · have hjournal := h.journal
    rw [hnew] at hjournal
    have hlog : v.recs ++ (pre ++ ⟨sql, none, some r.success⟩ :: post).filterMap OpenCall.record
        = v.log := by
      rw [View.log, hnew]
      exact congrArg (v.recs ++ ·) (record_answered pre post ⟨sql, none, none⟩ r.success)
    refine ⟨{ v with new := pre ++ ⟨sql, none, some r.success⟩ :: post }, ?_, rfl, rfl⟩
    refine ⟨hserves, hset (hcalls _), h.settled, ?_, h.before, hjournal.query rfl r.success, ?_⟩
    · rw [View.log, hlog]
      exact h.disk
    · rw [View.log, hlog]
      exact h.numbers

/-- A logged call is executed in order. -/
theorem Tracked.run_logged {i : Nat} {n : UInt64} (h : Tracked dataDir s v) (horder : InOrder s i)
    (hk : s.calls[i]? = some ⟨sql, some n, none⟩)
    (hex : s.db.executor.executeSql now sql = .ok (ex, r)) :
    ∃ v', Tracked dataDir { s with
        db := { s.db with executor := ex }
        calls := s.calls.set i ⟨sql, some n, some r.success⟩ } v' ∧
      v'.old = v.old ∧ v'.w = v.w := by
  have hwaits : OpenCall.Waiting ⟨sql, some n, none⟩ := ⟨rfl, rfl⟩
  have hfree := horder _ hk rfl
  have hqueries := h.queries_set hk r.success
  rw [h.calls] at hk hfree
  rcases split_call hk with ⟨pre, post, hold, _⟩ | ⟨pre, post, hnew, hpre, hcalls⟩
  · exact absurd hwaits (h.settled _ (by rw [hold]; simp))
  · have hjournal := h.journal
    rw [hnew] at hjournal
    have hrec : WALRecord.mk n sql ∈ v.log := by
      rw [View.log, hnew]
      exact List.mem_append_right _ (List.mem_filterMap.mpr ⟨⟨sql, some n, none⟩, by simp, rfl⟩)
    have hsound := h.disk.sound _ hrec
    obtain ⟨c', ok, happ, hm, hok⟩ := executeSql_models h.tables hsound.1.fits hex
    obtain rfl := hok hsound.not_select
    have hlog : v.recs ++ (pre ++ ⟨sql, some n, some r.success⟩ :: post).filterMap OpenCall.record
        = v.log := by
      rw [View.log, hnew]
      exact congrArg (v.recs ++ ·) (record_answered pre post ⟨sql, some n, none⟩ r.success)
    refine ⟨{ v with new := pre ++ ⟨sql, some n, some r.success⟩ :: post, c := c' }, ?_, rfl, rfl⟩
    refine ⟨⟨h.dir, h.writer, hm, h.named.apply hsound.1.short happ, hqueries⟩, ?_, h.settled, ?_,
      h.before, hjournal.run hwaits (fun a ha => hfree a (hpre ha)) happ, ?_⟩
    · show s.calls.set i _ = _
      rw [h.calls, hcalls]
    · rw [View.log, hlog]
      exact h.disk
    · rw [View.log, hlog]
      exact h.numbers

theorem Tracked.run {s' : Session} {i : Nat} (h : Tracked dataDir s v) (horder : InOrder s i)
    (hstep : s.step (.run now i) = .ok s') :
    ∃ v', Tracked dataDir s' v' ∧ v'.old.length = v.old.length ∧ v'.w = v.w := by
  rcases step_run hstep with rfl | ⟨sql, lsn, ex, r, hk, hex, rfl⟩
  · exact ⟨v, h, rfl, rfl⟩
  · cases lsn with
    | none => exact h.run_query hk hex
    | some n =>
        obtain ⟨v', h', hold, hw⟩ := h.run_logged horder hk hex
        exact ⟨v', h', congrArg List.length hold, hw⟩

/-- The steps of `execute` leave the snapshot where it is. -/
theorem step_snapshot {s' : Session} {a : SessionStep} (ha : a.ofExecute = true)
    (h : s.step a = .ok s') : s'.snapshot = s.snapshot := by
  cases a with
  | log sql => rw [← Except.ok.inj h]
  | run now i =>
      rcases step_run h with rfl | ⟨_, _, _, _, _, _, rfl⟩
      · rfl
      · rfl
  | readLsn => exact absurd ha (by decide)
  | save now fault tables => exact absurd ha (by simp [SessionStep.ofExecute])
  | truncate => exact absurd ha (by decide)

/-- Calls of `execute` in order. -/
theorem Tracked.execute {s' : Session} {a : SessionStep} (h : Tracked dataDir s v)
    (hdir : dataDir ≠ []) (ha : a.ofExecute = true) (hcan : Possible s a) (hok : KeepsOrder s a)
    (hstep : s.step a = .ok s') :
    ∃ v', Tracked dataDir s' v' ∧ v'.old.length = v.old.length ∧ v.w.nextLsn ≤ v'.w.nextLsn := by
  cases a with
  | log sql =>
      obtain ⟨v', h', hold, hw⟩ := h.log hdir hcan.1 hcan.2 hstep
      exact ⟨v', h', congrArg List.length hold, hw⟩
  | run now i =>
      obtain ⟨v', h', hold, hw⟩ := h.run hok hstep
      exact ⟨v', h', hold, by rw [hw]; exact UInt64.le_refl _⟩
  | readLsn => exact absurd ha (by decide)
  | save now fault tables => exact absurd ha (by simp [SessionStep.ofExecute])
  | truncate => exact absurd ha (by decide)

/-! ### The steps of a snapshot -/

theorem Tracked.phase (h : Tracked dataDir s v) (p : Snapshotting) :
    Tracked dataDir { s with snapshot := p } v :=
  ⟨⟨h.dir, h.writer, h.tables, h.named, h.queries⟩, h.calls, h.settled, h.disk, h.before, h.journal,
    h.numbers⟩

/-- A snapshot saves what the executed calls led to. -/
theorem Tracked.save (h : Tracked dataDir s v) (hw : Within s.db) {tables : List (Bytes × Table)}
    (hs : Snapshots s.db now tables) (hnone : NoneWaiting s.calls) {lsn : UInt64}
    (hlsn : lsn < v.w.nextLsn) {file : Bytes}
    (hfile : Snapshot.contents now tables lsn = .ok file) :
    AfterSave dataDir { s with
      db := { s.db with snapshotLsn := lsn }
      disk := { s.disk with snapshot := some file }
      snapshot := .saved } v.w lsn v.c v.log := by
  have hcount : tables.length < 2 ^ 32 := by
    rw [Enumerates.length_eq hs.order]
    exact hw.tables
  obtain ⟨file', hfile', hcov⟩ :=
    contents_covers h.tables h.named hs.order hs.live hcount hw.rows lsn
  obtain rfl := Except.ok.inj (hfile.symm.trans hfile')
  exact ⟨⟨h.dir, h.writer, h.tables, h.named, h.queries⟩, hnone, h.disk.save hcov, hlsn⟩

section AfterSave

variable {lsn : UInt64} {recs : List WALRecord} {s' : Session}

theorem AfterSave.log (h : AfterSave dataDir s w lsn c recs) (hdir : dataDir ≠ [])
    (hmut : isMutatingSql sql = false) (hstep : s.step (.log sql) = .ok s') :
    AfterSave dataDir s' w lsn c recs := by
  rcases step_log h.writer (by rw [h.dir]; exact hdir) hstep with ⟨_, rfl⟩ | ⟨hmut', _⟩
  · exact ⟨h.log_query hmut, noneWaiting_append h.settled noneWaiting_query, h.disk, h.next⟩
  · exact absurd (hmut.symm.trans hmut') (by simp)

theorem AfterSave.run {i : Nat} (h : AfterSave dataDir s w lsn c recs)
    (hstep : s.step (.run now i) = .ok s') : AfterSave dataDir s' w lsn c recs := by
  rcases step_run hstep with rfl | ⟨sql, n, ex, r, hk, hex, rfl⟩
  · exact h
  · cases n with
    | none =>
        refine ⟨h.toServes.run_query hk hex, fun k hmem hw => ?_, h.disk, h.next⟩
        rcases List.mem_or_eq_of_mem_set hmem with hmem | rfl
        · exact h.settled k hmem hw
        · exact absurd hw.1 (by simp)
    | some n => exact absurd ⟨rfl, rfl⟩ (h.settled _ (List.mem_of_getElem? hk))

/-- The log is emptied; the snapshot holds all there is. -/
theorem AfterSave.truncate (h : AfterSave dataDir s w lsn c recs) :
    Tracked dataDir { s with
      disk := { s.disk with wal := some [] }
      snapshot := .idle } ⟨w, lsn, c, [], c, s.calls, [], c⟩ :=
  ⟨⟨h.dir, h.writer, h.tables, h.named, h.queries⟩, (List.append_nil _).symm, h.settled,
    h.disk.truncate, ⟨[], rfl⟩, journal_nil c, h.next, by simp [View.log]⟩

end AfterSave

/-! ### Runs -/

/-- The snapshot is in its last step, or the log and the tables agree. -/
def SessionInv (dataDir : Bytes) (s : Session) : Prop :=
  (s.snapshot = .saved ∧ ∃ w lsn c recs, AfterSave dataDir s w lsn c recs) ∨
  (s.snapshot ≠ .saved ∧ ∃ v, Tracked dataDir s v ∧
    ∀ lsn, s.snapshot = .numbered lsn → lsn < v.w.nextLsn)

theorem sessionInv_execute {s' : Session} {a : SessionStep} (hdir : dataDir ≠ [])
    (h : SessionInv dataDir s) (ha : a.ofExecute = true) (hcan : Possible s a)
    (hok : KeepsOrder s a) (hstep : s.step a = .ok s') : SessionInv dataDir s' := by
  have hphase := step_snapshot ha hstep
  rcases h with ⟨hsaved, w, lsn, c, recs, h⟩ | ⟨hsaved, v, h, hlsn⟩
  · refine .inl ⟨hphase.trans hsaved, w, lsn, c, recs, ?_⟩
    cases a with
    | log sql => exact h.log hdir (hok hsaved) hstep
    | run now i => exact h.run hstep
    | readLsn => exact absurd ha (by decide)
    | save now fault tables => exact absurd ha (by simp [SessionStep.ofExecute])
    | truncate => exact absurd ha (by decide)
  · obtain ⟨v', h', _, hw⟩ := h.execute hdir ha hcan hok hstep
    refine .inr ⟨hphase ▸ hsaved, v', h', fun lsn hn => ?_⟩
    exact UInt64.lt_of_lt_of_le (hlsn lsn (hphase ▸ hn)) hw

theorem sessionInv_step {s' : Session} {a : SessionStep} (hdir : dataDir ≠ [])
    (h : SessionInv dataDir s) (hcan : Possible s a) (hok : KeepsOrder s a)
    (hstep : s.step a = .ok s') : SessionInv dataDir s' := by
  have hwriter : ∃ w, s.db.walWriter = some w := by
    rcases h with ⟨_, w, _, _, _, h⟩ | ⟨_, v, h, _⟩
    · exact ⟨w, h.writer⟩
    · exact ⟨v.w, h.writer⟩
  obtain ⟨w, hw⟩ := hwriter
  cases a with
  | log sql => exact sessionInv_execute hdir h rfl hcan hok hstep
  | run now i => exact sessionInv_execute hdir h rfl hcan hok hstep
  | readLsn =>
      rcases step_readLsn hw hstep with rfl | ⟨hidle, rfl⟩
      · exact h
      · rcases h with ⟨hsaved, _⟩ | ⟨_, v, h, _⟩
        · exact absurd (hsaved.symm.trans hidle) (by simp)
        · obtain rfl := Option.some.inj (hw.symm.trans h.writer)
          refine .inr ⟨by simp, v, h.phase _, fun lsn hn => ?_⟩
          obtain rfl := Snapshotting.numbered.inj hn
          exact h.numbers.covered.1
  | save now fault tables =>
      rcases step_save hstep with rfl | ⟨lsn, hnum, hs'⟩
      · exact h
      · rcases h with ⟨hsaved, _⟩ | ⟨_, v, h, hlsn⟩
        · exact absurd (hsaved.symm.trans hnum) (by simp)
        · rcases hs' with rfl | ⟨file, hfile, rfl⟩
          · exact .inr ⟨by simp, v, h.phase _, fun _ hn => absurd hn (by simp)⟩
          · exact .inl ⟨rfl, _, _, _, _, h.save hcan.1 hcan.2 hok (hlsn lsn hnum) hfile⟩
  | truncate =>
      rcases step_truncate hw hstep with rfl | ⟨hsaved, rfl⟩
      · exact h
      · rcases h with ⟨_, _, _, _, _, h⟩ | ⟨hnot, _⟩
        · exact .inr ⟨by simp, _, h.truncate, fun _ hn => absurd hn (by simp)⟩
        · exact absurd hsaved hnot

/-- Between two calls nothing waits. -/
theorem tracked_opened {s₀ : Database × Disk} (h : Lifetime dataDir s₀) :
    dataDir ≠ [] ∧ ∃ v, Tracked dataDir (Session.opened s₀) v ∧ v.old = [] := by
  obtain ⟨hdir, w, lsn, c₀, recs, c, hd, ho⟩ := lifetime_durable h
  refine ⟨hdir, ⟨w, lsn, c₀, recs, c, [], [], c⟩, ?_, rfl⟩
  have hlog : View.log ⟨w, lsn, c₀, recs, c, [], [], c⟩ = recs := List.append_nil recs
  refine ⟨⟨hd.dir, hd.writer, hd.tables, hd.named, by simp [Session.opened]⟩, rfl,
    by simp [NoneWaiting], ?_, hd.history, journal_nil c, ?_⟩
  · rw [hlog]
    exact hd.disk
  · rw [hlog]
    exact ho

end Invariant

/-! ## Recovery -/

section Recovery

variable {calls : List OpenCall}

theorem answered_of_noneWaiting (h : NoneWaiting calls) {k : OpenCall} (hk : k ∈ calls)
    {n : UInt64} (hlsn : k.lsn = some n) : ∃ ok, k.answer = some ok := by
  cases hans : k.answer with
  | none => exact absurd ⟨by rw [hlsn]; rfl, hans⟩ (h k hk)
  | some ok => exact ⟨ok, rfl⟩

/-- When none waits, the log holds the executed texts. -/
theorem performed_records (h : NoneWaiting calls) :
    (calls.filterMap performed).map (·.1) = (calls.filterMap OpenCall.record).map (·.sql) := by
  rw [List.map_filterMap, List.map_filterMap]
  refine List.filterMap_congr fun k hk => ?_
  cases hlsn : k.lsn with
  | none =>
      rw [performed, OpenCall.record, hlsn]
      rfl
  | some n =>
      obtain ⟨ok, hok⟩ := answered_of_noneWaiting h hk hlsn
      rw [performed, OpenCall.record, hlsn, hok]
      rfl

theorem acknowledged_records (h : NoneWaiting calls) :
    ((calls.filterMap OpenCall.record).map (·.lsn)).zip ((calls.filterMap performed).map (·.2))
      = calls.filterMap OpenCall.acknowledged := by
  induction calls with
  | nil => rfl
  | cons k calls ih =>
      have ih := ih fun k' hk' => h k' (List.mem_cons_of_mem k hk')
      cases hlsn : k.lsn with
      | none =>
          have hrec : k.record = none := by rw [OpenCall.record, hlsn]; rfl
          have hack : k.acknowledged = none := by rw [OpenCall.acknowledged, hlsn]; rfl
          rw [List.filterMap_cons_none hrec, List.filterMap_cons_none (performed_unlogged hlsn),
            List.filterMap_cons_none hack, ih]
      | some n =>
          obtain ⟨ok, hok⟩ := answered_of_noneWaiting h List.mem_cons_self hlsn
          have hrec : k.record = some ⟨n, k.sql⟩ := by rw [OpenCall.record, hlsn]; rfl
          have hperf : performed k = some (k.sql, ok) := by rw [performed, hlsn, hok]; rfl
          have hack : k.acknowledged = some (n, ok) := by
            rw [OpenCall.acknowledged, hlsn, hok]
            rfl
          rw [List.filterMap_cons_some hrec, List.filterMap_cons_some hperf,
            List.filterMap_cons_some hack, List.map_cons, List.map_cons, List.zip_cons_cons, ih]

variable [FloatLib] {dataDir : Bytes} {s : Session}

theorem DiskHolds.answers {disk : Disk} {lsn : UInt64} {c c' : Catalog} {recs : List WALRecord}
    {oks : List Bool} (h : DiskHolds disk lsn c recs)
    (happly : c.applyAll ((uncovered lsn recs).map (·.sql)) = .ok (c', oks)) (dataDir : Bytes)
    (now : Int64) : recoveryAnswers dataDir now disk
      = .ok (((uncovered lsn recs).map (·.lsn)).zip oks) := by
  obtain ⟨m, hload, hm⟩ := h.loadSnapshot dataDir now
  have hm₁ : Models (recovered dataDir ⟨m, Executor.new.cache⟩ lsn 0).executor.tables c := hm
  obtain ⟨ex, hreplay, _⟩ := replayAnswers_models now hm₁ rfl h.sound happly
  rw [recoveryAnswers, hload, Outcome.bind_ok, h.readAll, hreplay]
  rfl

/-- When no logged call waits, recovery rebuilds the tables, and every logged
call is answered as it was. -/
theorem Tracked.recover {v : View} (h : Tracked dataDir s v) (hnone : NoneWaiting v.new)
    (now : Int64) : ∃ db prior, (Database.fresh dataDir).recover now s.disk = .ok db ∧
      SameTables s.db.executor.tables db.executor.tables ∧
      recoveryAnswers dataDir now s.disk
        = .ok (prior ++ v.new.filterMap OpenCall.acknowledged) := by
  have hunc : uncovered v.lsn v.log = v.log := by
    refine List.filter_eq_self.mpr fun r hr => ?_
    simpa using (h.numbers.recs r hr).1
  obtain ⟨oks, hbefore⟩ := h.before
  have happly : v.c₀.applyAll ((uncovered v.lsn v.log).map (·.sql))
      = .ok (v.c, oks ++ (v.new.filterMap performed).map (·.2)) := by
    rw [hunc, View.log, List.map_append, ← performed_records hnone]
    exact Actions.runAll_append hbefore (Actions.runAll_of_runs h.journal.history)
  obtain ⟨ex, n, hrec, hm⟩ := h.disk.recover happly dataDir now
  refine ⟨_, (v.recs.map (·.lsn)).zip oks, hrec, h.tables.same hm, ?_⟩
  have hlen : (v.recs.map (·.lsn)).length = oks.length := by
    rw [Actions.runAll_length hbefore, List.length_map, List.length_map]
  rw [h.disk.answers happly, hunc, View.log, List.map_append, List.zip_append hlen,
    acknowledged_records hnone]

/-- Calls of `execute` that overlap, in order. -/
theorem replay_of_execute_in_order {s₀ : Database × Disk} (h₀ : Lifetime dataDir s₀)
    (h : Session.Reach (fun s a => a.ofExecute = true ∧ Possible s a ∧ KeepsOrder s a)
      (Session.opened s₀) s)
    (hnone : NoneWaiting s.calls) (now : Int64) :
    ∃ db prior, (Database.fresh dataDir).recover now s.disk = .ok db ∧
      SameTables s.db.executor.tables db.executor.tables ∧
      recoveryAnswers dataDir now s.disk
        = .ok (prior ++ s.calls.filterMap OpenCall.acknowledged) := by
  obtain ⟨hdir, v₀, hv₀, hold₀⟩ := tracked_opened h₀
  have hinv : ∃ v, Tracked dataDir s v ∧ v.old.length = 0 := by
    clear hnone
    induction h with
    | start => exact ⟨v₀, hv₀, by rw [hold₀]; rfl⟩
    | step _ hok hstep ih =>
        obtain ⟨v, hv, hold⟩ := ih
        obtain ⟨v', hv', hold', _⟩ := hv.execute hdir hok.1 hok.2.1 hok.2.2 hstep
        exact ⟨v', hv', hold'.trans hold⟩
  obtain ⟨v, hv, hold⟩ := hinv
  have hcalls : s.calls = v.new := by
    rw [hv.calls, List.length_eq_zero_iff.mp hold]
    rfl
  rw [hcalls] at hnone ⊢
  exact hv.recover hnone now

end Recovery

section Runs

attribute [local instance] noDoubles

/-- Two tables are created; the one logged last is there first. -/
theorem replay_of_two_creates : ∃ (s : Session) (db : Database),
    (s.db.executor.tables.lookup (Bytes.lit "A")).isSome = true ∧
    (Database.fresh (Bytes.lit "d")).recover 0 s.disk = .ok db ∧
    SameTables s.db.executor.tables db.executor.tables ∧
    recoveryAnswers (Bytes.lit "d") 0 s.disk = .ok [(1, true), (2, true)] := by
  have hrun : (do
      let s₀ ← Database.new (Bytes.lit "d") 0 Disk.empty
      let s₁ ← (Session.opened s₀).step (.log (Bytes.lit "CREATE TABLE a (id INT)"))
      let s₂ ← s₁.step (.log (Bytes.lit "CREATE TABLE b (id INT)"))
      let s₃ ← s₂.step (.run 0 1)
      let s₄ ← s₃.step (.run 0 0)
      let answers ← recoveryAnswers (Bytes.lit "d") 0 s₄.disk
      .ok (decide (Within s₀.1 ∧ Within s₁.db ∧ InOrder s₂ 1 ∧ InOrder s₃ 0 ∧ NoneWaiting s₄.calls),
        (s₄.db.executor.tables.lookup (Bytes.lit "A")).isSome, answers) : Outcome _)
        = .ok (true, true, [(1, true), (2, true)]) := by decide +kernel
  obtain ⟨s₀, hopen, hrun⟩ := Outcome.bind_eq_ok.mp hrun
  obtain ⟨s₁, hlog₁, hrun⟩ := Outcome.bind_eq_ok.mp hrun
  obtain ⟨s₂, hlog₂, hrun⟩ := Outcome.bind_eq_ok.mp hrun
  obtain ⟨s₃, hrun₃, hrun⟩ := Outcome.bind_eq_ok.mp hrun
  obtain ⟨s₄, hrun₄, hrun⟩ := Outcome.bind_eq_ok.mp hrun
  obtain ⟨answers, hans, hrun⟩ := Outcome.bind_eq_ok.mp hrun
  simp only [Except.ok.injEq, Prod.mk.injEq, decide_eq_true_eq] at hrun
  obtain ⟨⟨hw₀, hw₁, hin₂, hin₃, hnone⟩, ha, rfl⟩ := hrun
  have hlogs : Loggable (Bytes.lit "CREATE TABLE a (id INT)") ∧
      Loggable (Bytes.lit "CREATE TABLE b (id INT)") := by decide +kernel
  have hidle : ∀ {s : Session} {sql : Bytes}, s.snapshot = .idle → KeepsOrder s (.log sql) :=
    fun hs hsaved => absurd (hs.symm.trans hsaved) (by simp)
  have hreach : Session.Reach (fun s a => a.ofExecute = true ∧ Possible s a ∧ KeepsOrder s a)
      (Session.opened s₀) s₄ :=
    (((Session.Reach.start.step ⟨rfl, ⟨hw₀, hlogs.1⟩, hidle rfl⟩ hlog₁).step
      ⟨rfl, ⟨hw₁, hlogs.2⟩, hidle (step_snapshot rfl hlog₁)⟩ hlog₂).step (a := .run 0 1)
      ⟨rfl, trivial, hin₂⟩ hrun₃).step (a := .run 0 0) ⟨rfl, trivial, hin₃⟩ hrun₄
  obtain ⟨db, _, hrec, hsame, _⟩ :=
    replay_of_execute_in_order (.opened (by decide) hopen) hreach hnone 0
  exact ⟨s₄, db, ha, hrec, hsame, hans⟩

/-- The `INSERT` is logged before the `CREATE TABLE` and executed after it:
both succeed, but on replay the table is not there yet. -/
theorem replay_of_overtaken_insert : ∃ s₀ s db, Lifetime (Bytes.lit "d") s₀ ∧
    Session.Reach (fun s a => a.ofExecute = true ∧ Possible s a) (Session.opened s₀) s ∧
    NoneWaiting s.calls ∧ s.calls.filterMap OpenCall.acknowledged = [(1, true), (2, true)] ∧
    recoveryAnswers (Bytes.lit "d") 0 s.disk = .ok [(1, false), (2, true)] ∧
    (Database.fresh (Bytes.lit "d")).recover 0 s.disk = .ok db ∧
    ¬ SameTables s.db.executor.tables db.executor.tables := by
  have hrun : (do
      let s₀ ← Database.new (Bytes.lit "d") 0 Disk.empty
      let s₁ ← (Session.opened s₀).step (.log (Bytes.lit "INSERT INTO t VALUES (1)"))
      let s₂ ← s₁.step (.log (Bytes.lit "CREATE TABLE t (id INT)"))
      let s₃ ← s₂.step (.run 0 1)
      let s₄ ← s₃.step (.run 0 0)
      let answers ← recoveryAnswers (Bytes.lit "d") 0 s₄.disk
      let db ← (Database.fresh (Bytes.lit "d")).recover 0 s₄.disk
      .ok (decide (Within s₀.1 ∧ Within s₁.db ∧ NoneWaiting s₄.calls ∧
          s₄.calls.filterMap OpenCall.acknowledged = [(1, true), (2, true)] ∧
          answers = [(1, false), (2, true)]),
        (s₄.db.executor.tables.lookup (Bytes.lit "T")).map (·.rowCount),
        (db.executor.tables.lookup (Bytes.lit "T")).map (·.rowCount)) : Outcome _)
        = .ok (true, some 1, some 0) := by decide +kernel
  obtain ⟨s₀, hopen, hrun⟩ := Outcome.bind_eq_ok.mp hrun
  obtain ⟨s₁, hlog₁, hrun⟩ := Outcome.bind_eq_ok.mp hrun
  obtain ⟨s₂, hlog₂, hrun⟩ := Outcome.bind_eq_ok.mp hrun
  obtain ⟨s₃, hrun₃, hrun⟩ := Outcome.bind_eq_ok.mp hrun
  obtain ⟨s₄, hrun₄, hrun⟩ := Outcome.bind_eq_ok.mp hrun
  obtain ⟨answers, hans, hrun⟩ := Outcome.bind_eq_ok.mp hrun
  obtain ⟨db, hrec, hrun⟩ := Outcome.bind_eq_ok.mp hrun
  simp only [Except.ok.injEq, Prod.mk.injEq, decide_eq_true_eq] at hrun
  obtain ⟨⟨hw₀, hw₁, hnone, hack, rfl⟩, hcount, hcount'⟩ := hrun
  have hreach : Session.Reach (fun s a => a.ofExecute = true ∧ Possible s a)
      (Session.opened s₀) s₄ :=
    (((Session.Reach.start.step ⟨rfl, hw₀, loggable_insert⟩ hlog₁).step
      ⟨rfl, hw₁, loggable_create⟩ hlog₂).step
      (a := .run 0 1) ⟨rfl, trivial⟩ hrun₃).step (a := .run 0 0) ⟨rfl, trivial⟩ hrun₄
  exact ⟨s₀, s₄, db, .opened (by decide) hopen, hreach, hnone, hack, hans, hrec,
    not_sameTables hcount hcount' (by decide)⟩

end Runs

section Recovery

variable [FloatLib] {dataDir : Bytes} {s : Session}

/-- Calls that overlap with snapshots, in order. -/
theorem recover_of_snapshot_in_order {s₀ : Database × Disk} (h₀ : Lifetime dataDir s₀)
    (h : Session.Reach (fun s a => Possible s a ∧ KeepsOrder s a) (Session.opened s₀) s)
    (hidle : s.snapshot = .idle)
    (hnone : NoneWaiting s.calls) (now : Int64) :
    ∃ db, (Database.fresh dataDir).recover now s.disk = .ok db ∧
      SameTables s.db.executor.tables db.executor.tables := by
  obtain ⟨hdir, v₀, hv₀, _⟩ := tracked_opened h₀
  have hinv : SessionInv dataDir s := by
    clear hidle hnone
    induction h with
    | start => exact .inr ⟨by simp [Session.opened], v₀, hv₀, by simp [Session.opened]⟩
    | step _ hok hstep ih => exact sessionInv_step hdir ih hok.1 hok.2 hstep
  rcases hinv with ⟨hsaved, _⟩ | ⟨_, v, hv, _⟩
  · exact absurd (hsaved.symm.trans hidle) (by simp)
  · rw [hv.calls] at hnone
    obtain ⟨db, _, hrec, hsame, _⟩ :=
      hv.recover (fun k hk => hnone k (List.mem_append_right _ hk)) now
    exact ⟨db, hrec, hsame⟩

end Recovery

section Runs

attribute [local instance] noDoubles

theorem snapshots_empty {db : Database} {name : Bytes} {t : Table}
    (hcard : db.executor.tables.keys.card = 1) (ht : db.executor.tables.lookup name = some t)
    (hrows : t.rows = []) (now : Int64) : Snapshots db now [(name, t)] := by
  refine ⟨enumerates_single hcard ht, fun p hp q hq => ?_⟩
  rw [List.mem_singleton.mp hp] at hq
  exact absurd hq (by simp [hrows])

/-- A snapshot begins while a table is created, and a row goes in after it. -/
theorem recover_of_create_in_snapshot : ∃ (s : Session) (db : Database),
    (s.db.executor.tables.lookup (Bytes.lit "T")).map (·.rowCount) = some 1 ∧
    s.disk.snapshot.isSome = true ∧
    (Database.fresh (Bytes.lit "d")).recover 0 s.disk = .ok db ∧
    SameTables s.db.executor.tables db.executor.tables := by
  have hrun : (do
      let s₀ ← Database.new (Bytes.lit "d") 0 Disk.empty
      let s₁ ← (Session.opened s₀).step (.log (Bytes.lit "CREATE TABLE t (id INT)"))
      let s₂ ← s₁.step .readLsn
      let s₃ ← s₂.step (.run 0 0)
      let t ← Executor.cell (s₃.db.executor.tables.lookup (Bytes.lit "T")).toList 0
      let s₄ ← s₃.step (.save 0 none [(Bytes.lit "T", t)])
      let s₅ ← s₄.step .truncate
      let s₆ ← s₅.step (.log (Bytes.lit "INSERT INTO t VALUES (1)"))
      let s₇ ← s₆.step (.run 0 1)
      .ok (decide (Within s₀.1 ∧ InOrder s₂ 0 ∧ Within s₃.db ∧ NoneWaiting s₃.calls ∧
          s₃.db.executor.tables.keys.card = 1 ∧ t.rows = [] ∧ Within s₅.db ∧ s₅.snapshot = .idle ∧
          InOrder s₆ 1 ∧ s₇.snapshot = .idle ∧ NoneWaiting s₇.calls),
        (s₇.db.executor.tables.lookup (Bytes.lit "T")).map (·.rowCount),
        s₇.disk.snapshot.isSome) : Outcome _) = .ok (true, some 1, true) := by decide +kernel
  obtain ⟨s₀, hopen, hrun⟩ := Outcome.bind_eq_ok.mp hrun
  obtain ⟨s₁, hstep₁, hrun⟩ := Outcome.bind_eq_ok.mp hrun
  obtain ⟨s₂, hstep₂, hrun⟩ := Outcome.bind_eq_ok.mp hrun
  obtain ⟨s₃, hstep₃, hrun⟩ := Outcome.bind_eq_ok.mp hrun
  obtain ⟨t, ht, hrun⟩ := Outcome.bind_eq_ok.mp hrun
  obtain ⟨s₄, hstep₄, hrun⟩ := Outcome.bind_eq_ok.mp hrun
  obtain ⟨s₅, hstep₅, hrun⟩ := Outcome.bind_eq_ok.mp hrun
  obtain ⟨s₆, hstep₆, hrun⟩ := Outcome.bind_eq_ok.mp hrun
  obtain ⟨s₇, hstep₇, hrun⟩ := Outcome.bind_eq_ok.mp hrun
  simp only [Except.ok.injEq, Prod.mk.injEq, decide_eq_true_eq] at hrun
  obtain ⟨⟨hw₀, hin₂, hw₃, hnone₃, hcard, hrows, hw₅, hidle₅, hin₆, hidle₇, hnone₇⟩, hcount,
    hfile⟩ := hrun
  have hsnap := snapshots_empty hcard (cell_toList ht) hrows 0
  have hidle : ∀ {s : Session} {sql : Bytes}, s.snapshot = .idle → KeepsOrder s (.log sql) :=
    fun hs hsaved => absurd (hs.symm.trans hsaved) (by simp)
  have hreach₃ : Session.Reach (fun s a => Possible s a ∧ KeepsOrder s a) (Session.opened s₀) s₃ :=
    ((Session.Reach.start.step ⟨⟨hw₀, loggable_create⟩, hidle rfl⟩ hstep₁).step (a := .readLsn)
      ⟨trivial, trivial⟩ hstep₂).step (a := .run 0 0) ⟨trivial, hin₂⟩ hstep₃
  have hreach₅ := (hreach₃.step (a := .save 0 none _) ⟨⟨hw₃, hsnap⟩, hnone₃⟩ hstep₄).step
    (a := .truncate) ⟨trivial, trivial⟩ hstep₅
  have hreach₇ := (hreach₅.step (a := .log _) ⟨⟨hw₅, loggable_insert⟩, hidle hidle₅⟩ hstep₆).step
    (a := .run 0 1) ⟨trivial, hin₆⟩ hstep₇
  obtain ⟨db, hrec, hsame⟩ :=
    recover_of_snapshot_in_order (.opened (by decide) hopen) hreach₇ hidle₇ hnone₇ 0
  exact ⟨s₇, db, hcount, hfile, hrec, hsame⟩

/-- An `INSERT` is in the log but not executed when the snapshot is saved; the
snapshot does not hold its row, and its record goes with the log. -/
theorem snapshot_discards_waiting_insert : ∃ s₀ s db, Lifetime (Bytes.lit "d") s₀ ∧
    Session.Reach Possible (Session.opened s₀) s ∧ s.snapshot = .idle ∧ NoneWaiting s.calls ∧
    s.calls.filterMap OpenCall.acknowledged = [(1, true), (2, true)] ∧
    (s.db.executor.tables.lookup (Bytes.lit "T")).map (·.rowCount) = some 1 ∧
    (Database.fresh (Bytes.lit "d")).recover 0 s.disk = .ok db ∧
    (db.executor.tables.lookup (Bytes.lit "T")).map (·.rowCount) = some 0 := by
  have hrun : (do
      let s₀ ← Database.new (Bytes.lit "d") 0 Disk.empty
      let s₁ ← (Session.opened s₀).step (.log (Bytes.lit "CREATE TABLE t (id INT)"))
      let s₂ ← s₁.step (.run 0 0)
      let s₃ ← s₂.step (.log (Bytes.lit "INSERT INTO t VALUES (1)"))
      let s₄ ← s₃.step .readLsn
      let t ← Executor.cell (s₄.db.executor.tables.lookup (Bytes.lit "T")).toList 0
      let s₅ ← s₄.step (.save 0 none [(Bytes.lit "T", t)])
      let s₆ ← s₅.step .truncate
      let s₇ ← s₆.step (.run 0 1)
      let db ← (Database.fresh (Bytes.lit "d")).recover 0 s₇.disk
      .ok (decide (Within s₀.1 ∧ Within s₂.db ∧ Within s₄.db ∧
          s₄.db.executor.tables.keys.card = 1 ∧ t.rows = [] ∧ s₇.snapshot = .idle ∧
          NoneWaiting s₇.calls ∧ s₇.calls.filterMap OpenCall.acknowledged = [(1, true), (2, true)]),
        (s₇.db.executor.tables.lookup (Bytes.lit "T")).map (·.rowCount),
        (db.executor.tables.lookup (Bytes.lit "T")).map (·.rowCount)) : Outcome _)
        = .ok (true, some 1, some 0) := by decide +kernel
  obtain ⟨s₀, hopen, hrun⟩ := Outcome.bind_eq_ok.mp hrun
  obtain ⟨s₁, hstep₁, hrun⟩ := Outcome.bind_eq_ok.mp hrun
  obtain ⟨s₂, hstep₂, hrun⟩ := Outcome.bind_eq_ok.mp hrun
  obtain ⟨s₃, hstep₃, hrun⟩ := Outcome.bind_eq_ok.mp hrun
  obtain ⟨s₄, hstep₄, hrun⟩ := Outcome.bind_eq_ok.mp hrun
  obtain ⟨t, ht, hrun⟩ := Outcome.bind_eq_ok.mp hrun
  obtain ⟨s₅, hstep₅, hrun⟩ := Outcome.bind_eq_ok.mp hrun
  obtain ⟨s₆, hstep₆, hrun⟩ := Outcome.bind_eq_ok.mp hrun
  obtain ⟨s₇, hstep₇, hrun⟩ := Outcome.bind_eq_ok.mp hrun
  obtain ⟨db, hrec, hrun⟩ := Outcome.bind_eq_ok.mp hrun
  simp only [Except.ok.injEq, Prod.mk.injEq, decide_eq_true_eq] at hrun
  obtain ⟨⟨hw₀, hw₂, hw₄, hcard, hrows, hidle, hnone, hack⟩, hcount, hcount'⟩ := hrun
  have hsnap := snapshots_empty hcard (cell_toList ht) hrows 0
  have hreach₄ : Session.Reach Possible (Session.opened s₀) s₄ :=
    (((Session.Reach.start.step ⟨hw₀, loggable_create⟩ hstep₁).step (a := .run 0 0) trivial
      hstep₂).step ⟨hw₂, loggable_insert⟩ hstep₃).step (a := .readLsn) trivial hstep₄
  have hreach₇ := ((hreach₄.step (a := .save 0 none _) ⟨hw₄, hsnap⟩ hstep₅).step
    (a := .truncate) trivial hstep₆).step (a := .run 0 1) trivial hstep₇
  exact ⟨s₀, s₇, db, .opened (by decide) hopen, hreach₇, hidle, hnone, hack, hcount, hrec, hcount'⟩

end Runs

end FlexQL.Proofs
