import FlexQL.Proofs.Ages
import FlexQL.Proofs.Checkpoint
import FlexQL.Proofs.Sweep
import FlexQL.Spec.Sweeper

/-!
# The sweeper has nothing to sweep

A sweep covers the tables that are registered. The database registers none: from
its constructor on, through any calls, the list of the sweeper is empty, and
`sweep_now` leaves every table as it is. So the tables are as they should be
after a sweep exactly if no row has expired since it was put in.

For that the records of each table are followed together with the times at which
they were put in. A table whose rows do not fit in 32 bits is outside of this,
until the sweep is looked at: its bytes are not those of any records.
-/

namespace FlexQL.Proofs

open Lib FlexQL.Ref FlexQL.Spec

/-! ## Sweeping what is registered -/

section Registered

variable {t : Table} {rs : List Record} {now : Int64}

/-- In terms of the records. -/
theorem Rep.covered_iff (h : Rep t rs) :
    Covered now t ↔ ∀ r ∈ rs, r.valid = true → ¬ (0 < r.expiry ∧ r.expiry < now) := by
  constructor
  · intro hc r hr hv
    obtain ⟨i, hi, rfl⟩ := List.mem_iff_getElem.mp hr
    have hi' : i < t.rows.length := h.rows.length_eq ▸ hi
    have hrow := (List.forall₂_iff_get.mp h.rows).2 i hi' hi
    refine hc.rows _ (List.get_mem t.rows ⟨i, hi'⟩) _ ?_ (hrow.readExpiry h.fits)
    rw [hrow.readValid h.fits]
    exact congrArg _ (if_pos hv)
  · intro hall
    refine ⟨fun p hp expiry hv he => ?_, _, h.scanAll now, ?_⟩
    · obtain ⟨i, hi, rfl⟩ := List.mem_iff_getElem.mp hp
      have hi' : i < rs.length := h.rows.length_eq ▸ hi
      have hrow := (List.forall₂_iff_get.mp h.rows).2 i hi hi'
      have hvalid := Except.ok.inj ((hrow.readValid h.fits).symm.trans hv)
      obtain rfl := Except.ok.inj ((hrow.readExpiry h.fits).symm.trans he)
      refine hall _ (List.get_mem rs ⟨i, hi'⟩) ?_
      by_contra hno
      rw [if_neg hno] at hvalid
      exact absurd hvalid (by decide)
    · have hlive : ∀ r ∈ rs, r.live now = r.valid := by
        intro r hr
        cases hv : r.valid with
        | false => rw [Record.live, hv, Bool.false_and]
        | true =>
            rw [live_of_unexpired (by simpa using hall r hr hv), hv]
      rw [h.count, List.length_map, ← List.countP_eq_length_filter]
      exact congrArg _ (List.countP_congr fun r hr => by rw [hlive r hr])

/-- A sweep of a table does its work. -/
theorem Rep.sweep_covered (h : Rep t (rs.map (·.sweep now))) : Covered now t := by
  refine h.covered_iff.mpr fun r hr hv hexpired => ?_
  obtain ⟨r, -, rfl⟩ := List.mem_map.mp hr
  have hlive : r.live now = false := live_of_expired (by simpa [Record.sweep] using hexpired)
  rw [Record.sweep, hlive] at hv
  exact absurd hv (by simp)

/-- What a round of the loop makes of a table: it still stores records, and it
is covered if it was, or if it is among those that are pointed to. -/
def SweepsTo (now : Int64) (pointed : List Bytes) (tables tables' : Finmap fun _ : Bytes => Table) :
    Prop :=
  ∀ name t', tables'.lookup name = some t' → ∃ t, tables.lookup name = some t ∧
    (∃ rs, Rep t' rs) ∧ ((Covered now t ∨ name ∈ pointed) → Covered now t')

theorem sweepTables_covers {registered : List (Bytes × Bytes)}
    {tables : Finmap fun _ : Bytes => Table}
    (hrep : ∀ name t, tables.lookup name = some t → ∃ rs, Rep t rs)
    (hptr : ∀ x ∈ registered, ∃ t, tables.lookup x.2 = some t) (n : Nat) :
    ∃ tables' n', TTLManager.sweepTables now registered tables n = .ok (tables', n') ∧
      SweepsTo now (registered.map (·.2)) tables tables' := by
  induction registered generalizing tables n with
  | nil =>
      refine ⟨tables, n, rfl, fun name t ht => ⟨t, ht, hrep name t ht, fun h => ?_⟩⟩
      exact h.resolve_right List.not_mem_nil
  | cons x rest ih =>
      obtain ⟨t₀, ht₀⟩ := hptr x List.mem_cons_self
      obtain ⟨rs₀, hrep₀⟩ := hrep x.2 t₀ ht₀
      obtain ⟨t₁, hclean, hrep₁, -⟩ := hrep₀.cleanupExpired now
      -- the map in which the rest of the loop runs
      have hlook : ∀ name t, (tables.insert x.2 t₁).lookup name = some t →
          (name = x.2 ∧ t = t₁) ∨ (name ≠ x.2 ∧ tables.lookup name = some t) := by
        intro name t ht
        by_cases hname : name = x.2
        · rw [hname, Finmap.lookup_insert] at ht
          exact .inl ⟨hname, (Option.some.inj ht).symm⟩
        · rw [Finmap.lookup_insert_of_ne _ hname] at ht
          exact .inr ⟨hname, ht⟩
      obtain ⟨tables', n', hrun, hto⟩ := @ih (tables.insert x.2 t₁)
        (fun name t ht => by
          rcases hlook name t ht with ⟨-, rfl⟩ | ⟨-, ht⟩
          · exact ⟨_, hrep₁⟩
          · exact hrep name t ht)
        (fun y hy => by
          by_cases hname : y.2 = x.2
          · exact ⟨t₁, hname ▸ Finmap.lookup_insert _⟩
          · rw [Finmap.lookup_insert_of_ne _ hname]
            exact hptr y (List.mem_cons_of_mem x hy))
        (n + rs₀.countP (swept now))
      refine ⟨tables', n', ?_, fun name t' ht' => ?_⟩
      · obtain ⟨name, table⟩ := x
        rw [TTLManager.sweepTables, ht₀, ← hrun]
        simp only [hclean, Outcome.bind_ok]
      · obtain ⟨t, ht, hrep', hcov⟩ := hto name t' ht'
        rcases hlook name t ht with ⟨rfl, rfl⟩ | ⟨hname, ht⟩
        · exact ⟨t₀, ht₀, hrep', fun _ => hcov (.inl hrep₁.sweep_covered)⟩
        · refine ⟨t, ht, hrep', fun h => hcov (h.imp_right fun hmem => ?_)⟩
          exact (List.mem_cons.mp hmem).resolve_left hname

theorem mem_registered {names : List Bytes} {m : TTLManager} {x : Bytes × Bytes} :
    x ∈ (names.foldl (fun m name => m.registerTable name name) m).tables →
      x.2 ∈ names ∨ x ∈ m.tables := by
  induction names generalizing m with
  | nil => exact .inr
  | cons name names ih =>
      intro hx
      rcases ih hx with h | h
      · exact .inl (List.mem_cons_of_mem name h)
      · rcases List.mem_cons.mp h with rfl | h
        · exact .inl List.mem_cons_self
        · exact .inr (List.mem_of_mem_filter h)

theorem registered_of_mem {names : List Bytes} {m : TTLManager} {name : Bytes}
    (h : name ∈ names ∨ (name, name) ∈ m.tables) :
    (name, name) ∈ (names.foldl (fun m name => m.registerTable name name) m).tables := by
  induction names generalizing m with
  | nil => exact h.resolve_left List.not_mem_nil
  | cons first names ih =>
      refine ih ?_
      by_cases hname : name = first
      · exact .inr (hname ▸ List.mem_cons_self)
      · refine (h.imp_left fun h => (List.mem_cons.mp h).resolve_left hname).imp_right fun h => ?_
        exact List.mem_cons_of_mem _ (List.mem_filter.mpr ⟨h, by simpa using hname⟩)

/-- With every table registered under its name, a sweep would cover them all. -/
theorem registered_covered {names : List Bytes} {tables : Finmap fun _ : Bytes => Table}
    (hrep : ∀ name t, tables.lookup name = some t → ∃ rs, Rep t rs)
    (hnames : ∀ name, name ∈ names ↔ ∃ t, tables.lookup name = some t) :
    ∃ tables' n,
      (names.foldl (fun m name => m.registerTable name name) TTLManager.new).sweepNow now tables =
        .ok (tables', n) ∧ ∀ name t, tables'.lookup name = some t → Covered now t := by
  obtain ⟨tables', n, hrun, hto⟩ := @sweepTables_covers now _ tables hrep
    (fun x hx => (hnames x.2).mp ((mem_registered hx).resolve_right List.not_mem_nil)) 0
  refine ⟨tables', n, hrun, fun name t' ht' => ?_⟩
  obtain ⟨t, ht, -, hcov⟩ := hto name t' ht'
  have hmem := registered_of_mem (m := TTLManager.new) (.inl ((hnames name).mpr ⟨t, ht⟩))
  exact hcov (.inr (List.mem_map_of_mem (f := (·.2)) hmem))

end Registered

/-! ## Records and the times they were put in -/

/-- If rows of the table fit, it stores records that were put in at the times. -/
structure Dated (times : List Int64) (t : Table) : Prop where
  ttl : t.ttlSeconds = defaultTtlSeconds
  stores : extent t.schema.columns + 9 < 2 ^ 32 → ∃ rs, Rep t rs ∧
    List.Forall₂ (fun time rec => ∃ row, rec = recordOf defaultTtlSeconds (time, row)) times rs

/-- What insertions at `now` make of a table. -/
structure Added (now : Int64) (t t' : Table) : Prop where
  schema : t'.schema = t.schema
  ttl : t'.ttlSeconds = t.ttlSeconds
  rows : t.rows.length ≤ t'.rows.length
  stores : ∀ rs, Rep t rs → ∃ rows, Rep t' (rs ++ recordsOf t.ttlSeconds now rows)

section Tables

variable {t t' t'' : Table} {times : List Int64} {now : Int64}

theorem Added.refl (now : Int64) (t : Table) : Added now t t :=
  ⟨rfl, rfl, Nat.le_refl _, fun rs h => ⟨[], by simpa [recordsOf] using h⟩⟩

theorem Added.insert (h : Added now t t') {row : Row} {e : Option Bytes}
    (hins : t'.insert now row = .ok (t'', e)) : Added now t t'' := by
  rcases insert_cases hins with ⟨-, rfl, -⟩ | ⟨rfl, -, -, hlen, hs, -, httl⟩
  · exact h
  · refine ⟨hs.trans h.schema, httl.trans h.ttl, by have := h.rows; omega, fun rs hrep => ?_⟩
    obtain ⟨rows, hrep'⟩ := h.stores rs hrep
    refine ⟨rows ++ [row], ?_⟩
    rw [recordsOf, List.map_append, ← List.append_assoc]
    exact h.ttl ▸ (hrep'.insert_ok hins).1

theorem dated_new {name : Bytes} {cols : List ColumnDef}
    (h : Table.new name (Schema.empty.addColumns cols) defaultTtlSeconds = .ok t) :
    Dated [] t ∧ t.rows = [] := by
  have hpk := (settled_new ⟨cols, rfl⟩ h).pk
  obtain ⟨pk, -, hk⟩ := Outcome.bind_eq_ok.mp h
  have hs : t.schema = Schema.empty.addColumns cols := by rw [← Except.ok.inj hk]
  refine ⟨⟨by rw [← Except.ok.inj hk], fun hsize => ⟨[], ?_, .nil⟩⟩, by rw [← Except.ok.inj hk]⟩
  rw [hs] at hpk hsize
  obtain ⟨t', hnew, hrep, -⟩ := rep_new name ⟨⟨cols, rfl⟩, hpk, hsize⟩ defaultTtlSeconds
  rwa [Except.ok.inj (h.symm.trans hnew)]

/-- The rows that are new were put in at `now`. -/
theorem Dated.grown (h : Dated times t) (hg : Added now t t') :
    Dated (times.take t.rows.length ++ List.replicate (t'.rows.length - t.rows.length) now) t' := by
  refine ⟨hg.ttl.trans h.ttl, fun hsize => ?_⟩
  rw [hg.schema] at hsize
  obtain ⟨rs, hrep, htimes⟩ := h.stores hsize
  obtain ⟨rows, hrep'⟩ := hg.stores rs hrep
  refine ⟨_, hrep', ?_⟩
  have hold : t.rows.length = rs.length := hrep.rows.length_eq
  have hnew : t'.rows.length = rs.length + (recordsOf t.ttlSeconds now rows).length := by
    rw [hrep'.rows.length_eq, List.length_append]
  rw [hold, hnew, Nat.add_sub_cancel_left, ← htimes.length_eq, List.take_length]
  refine List.rel_append htimes (forall₂_replicate fun rec hrec => ?_)
  obtain ⟨row, -, rfl⟩ := List.mem_map.mp hrec
  exact ⟨row, by rw [h.ttl]⟩

/-- All rows were put in at `now`. -/
theorem Dated.grown_at (h : Dated (List.replicate t.rows.length now) t) (hg : Added now t t') :
    Dated (List.replicate t'.rows.length now) t' := by
  have hto := h.grown hg
  rwa [List.take_replicate, Nat.min_self, ← List.replicate_add, Nat.add_sub_cancel' hg.rows] at hto

/-- A table that stores records is covered if none of them has expired. -/
theorem Dated.covered_iff (h : Dated times t) (hsize : extent t.schema.columns + 9 < 2 ^ 32) :
    Covered now t ↔ ∀ time ∈ times, ¬ Lapsed now time := by
  obtain ⟨rs, hrep, htimes⟩ := h.stores hsize
  rw [hrep.covered_iff]
  clear h hrep
  induction htimes with
  | nil => simp
  | cons hrec _ ih =>
      obtain ⟨row, rfl⟩ := hrec
      rw [List.forall_mem_cons, List.forall_mem_cons, ih]
      exact and_congr_left' ⟨fun h => h rfl, fun h _ => h⟩

end Tables

/-! ## Statements and recovery -/

/-- A table of the second map has grown out of one of the first, or is new. -/
def Advanced (now : Int64) (m m' : Finmap fun _ : Bytes => Table) : Prop :=
  ∀ name t', m'.lookup name = some t' →
    (∃ t, m.lookup name = some t ∧ Added now t t') ∨
      (m.lookup name = none ∧ Dated [] t' ∧ t'.rows = [])

/-- The times belong to the tables. -/
def DatedTables (times : Bytes → List Int64) (m : Finmap fun _ : Bytes => Table) : Prop :=
  ∀ name t, m.lookup name = some t → Dated (times name) t

section Maps

variable {m m' : Finmap fun _ : Bytes => Table} {times : Bytes → List Int64} {now : Int64}

theorem advanced_refl (now : Int64) (m : Finmap fun _ : Bytes => Table) : Advanced now m m :=
  fun _ t ht => .inl ⟨t, ht, .refl now t⟩

theorem advanced_insert {name : Bytes} {t' : Table}
    (h : (∃ t, m.lookup name = some t ∧ Added now t t') ∨
      (m.lookup name = none ∧ Dated [] t' ∧ t'.rows = [])) :
    Advanced now m (m.insert name t') := by
  intro name' t ht
  by_cases hn : name' = name
  · subst hn
    rw [Finmap.lookup_insert] at ht
    obtain rfl := Option.some.inj ht
    exact h
  · rw [Finmap.lookup_insert_of_ne _ hn] at ht
    exact .inl ⟨t, ht, .refl now t⟩

theorem rowsIn_some {name : Bytes} {t : Table} (h : m.lookup name = some t) :
    rowsIn m name = t.rows.length := by
  rw [rowsIn, h]

theorem rowsIn_none {name : Bytes} (h : m.lookup name = none) : rowsIn m name = 0 := by
  rw [rowsIn, h]

theorem DatedTables.advance (h : DatedTables times m) (ha : Advanced now m m') :
    DatedTables (stamp m m' now times) m' := by
  intro name t' ht'
  rw [stamp, rowsIn_some ht']
  rcases ha name t' ht' with ⟨t, ht, hg⟩ | ⟨hnone, hd, hrows⟩
  · rw [rowsIn_some ht]
    exact (h name t ht).grown hg
  · rw [rowsIn_none hnone, hrows]
    exact hd

/-- All rows of the tables were put in at `now`. -/
def Restored (now : Int64) (m : Finmap fun _ : Bytes => Table) : Prop :=
  ∀ name t, m.lookup name = some t → Dated (List.replicate t.rows.length now) t

theorem Restored.advance (h : Restored now m) (ha : Advanced now m m') : Restored now m' := by
  intro name t' ht'
  rcases ha name t' ht' with ⟨t, ht, hg⟩ | ⟨-, hd, hrows⟩
  · exact (h name t ht).grown_at hg
  · rw [hrows]
    exact hd

theorem Restored.dated (h : Restored now m) :
    DatedTables (fun name => List.replicate (rowsIn m name) now) m := by
  intro name t ht
  show Dated (List.replicate (rowsIn m name) now) t
  rw [rowsIn_some ht]
  exact h name t ht

theorem restored_fresh (now : Int64) (dataDir : Bytes) :
    Restored now (Database.fresh dataDir).executor.tables :=
  fun name t ht => absurd ht (by simp [Database.fresh, Executor.new])

theorem load_restored {file : Bytes} {res : Snapshot.LoadResult}
    (h : Snapshot.load now file = .ok (.ok res)) : Restored now res.tables := by
  refine load_keeps (fun name cols t hnew => ?_) (fun t row t' e ht hins => ?_) h
  · obtain ⟨hd, hrows⟩ := dated_new hnew
    rw [hrows]
    exact hd
  · exact ht.grown_at ((Added.refl now t).insert hins)

end Maps

theorem log_executor (db : Database) (disk : Disk) (sql : Bytes) :
    (db.log disk sql).1.executor = db.executor := by
  rw [Database.log]
  split
  · rfl
  · split <;> rfl

section Calls

variable [FloatLib] {ex ex' : Executor} {db db' : Database} {now : Int64} {sql : Bytes}
  {r : QueryResult} {dataDir : Bytes} {start : Disk}

theorem executeSql_advanced (h : ex.executeSql now sql = .ok (ex', r)) :
    Advanced now ex.tables ex'.tables := by
  obtain ⟨res, -, h⟩ := Outcome.bind_eq_ok.mp h
  cases res with
  | error e =>
      obtain ⟨rfl, -⟩ := Prod.mk.inj (Except.ok.inj h)
      exact advanced_refl _ _
  | ok stmt =>
      cases stmt with
      | createTable stmt =>
          rcases execCreateTable_cases h with ⟨-, rfl⟩ | ⟨-, hnone, schema, t, hschema, hnew, rfl⟩
          · exact advanced_refl _ _
          · obtain ⟨cols, rfl⟩ := buildSchema_built hschema
            exact advanced_insert (.inr ⟨hnone, dated_new hnew⟩)
      | select stmt =>
          rw [execSelect_tables h]
          exact advanced_refl _ _
      | insert stmt =>
          rcases execInsert_cases h with ⟨-, -, rfl⟩ | ⟨t, t', n, e, hlook, htuples, htables, -⟩
          · exact advanced_refl _ _
          · rw [htables]
            refine advanced_insert (.inl ⟨t, hlook, ?_⟩)
            exact insertTuples_keeps (fun _ _ _ _ hg hins => hg.insert hins) (.refl now t) htuples

/-- Opening a database restores rows at `now`, from the snapshot and the log. -/
theorem recover_restored (h : (Database.fresh dataDir).recover now start = .ok db) :
    Restored now db.executor.tables := by
  refine @recover_keeps _ (fun db => Restored now db.executor.tables) _ db now start ?_ ?_ ?_ h
  · refine fun db₁ => @loadSnapshot_keeps (fun db => Restored now db.executor.tables) _ _ _ _
      (restored_fresh now dataDir) fun file r _ hfile => ?_
    have hunion : r.tables ∪ (Database.fresh dataDir).executor.tables = r.tables :=
      Finmap.union_empty
    simp only [hunion]
    exact load_restored hfile
  · intro db₁ rec db₂ go hdb hrun
    rw [Database.replayRecord] at hrun
    split at hrun
    · exact (Prod.mk.inj (Except.ok.inj hrun)).1 ▸ hdb
    · obtain ⟨⟨ex, res⟩, hex, hrun⟩ := Outcome.bind_eq_ok.mp hrun
      obtain ⟨rfl, -⟩ := Prod.mk.inj (Except.ok.inj hrun)
      exact hdb.advance (executeSql_advanced hex)
  · exact fun db₁ n hdb => hdb

theorem new_restored {s : Database × Disk} (h : Database.new dataDir now start = .ok s) :
    Restored now s.1.executor.tables := by
  rw [Database.new] at h
  split at h
  · obtain ⟨db, hrec, h⟩ := Outcome.bind_eq_ok.mp h
    obtain rfl := Except.ok.inj h
    exact @recover_restored _ db _ _ _ hrec
  · obtain rfl := Except.ok.inj h
    exact restored_fresh now dataDir

end Calls

/-! ## Runs -/

theorem takeSnapshot_executor {db : Database} {now : Int64} {fault : Option Snapshot.SaveFault}
    {tables : List (Bytes × Table)} {disk : Disk} {after : Database × Disk} {e : Option Bytes}
    (h : db.takeSnapshot now fault tables disk = .ok (after, e)) :
    after.1.executor = db.executor := by
  rw [Database.takeSnapshot] at h
  split at h
  · obtain ⟨x, hsave, h⟩ := Outcome.bind_eq_ok.mp h
    cases x with
    | error e => rw [← (Prod.mk.inj (Except.ok.inj h)).1]
    | ok saved =>
        obtain ⟨x, -, hsave⟩ := Outcome.bind_eq_ok.mp hsave
        cases x with
        | error e => exact absurd hsave (by simp)
        | ok file =>
            obtain rfl := Except.ok.inj (Except.ok.inj hsave)
            rw [← (Prod.mk.inj (Except.ok.inj h)).1, Database.truncateWal]
            split <;> rfl
  · rw [← (Prod.mk.inj (Except.ok.inj h)).1]

/-- Nothing is registered, so nothing is swept. -/
theorem sweepNow_idle {s : SweptDatabase} (h : s.ttlMgr.tables = []) (now : Int64) :
    s.sweepNow now = .ok (s, 0) := by
  rw [SweptDatabase.sweepNow, TTLManager.sweepNow, h]
  rfl

section Sweeps

variable [FloatLib] {dataDir : Bytes} {start : Disk} {s : SweptDatabase}

/-- What every state of a run has: no table is registered, and the times belong
to the tables. -/
theorem tended_dated {st : SweptDatabase × Disk} {times : Bytes → List Int64}
    (h : Tended dataDir start st times) :
    st.1.ttlMgr.tables = [] ∧ DatedTables times st.1.executor.tables := by
  induction h with
  | opened hnew =>
      obtain ⟨⟨db, disk⟩, hdb, hk⟩ := Outcome.bind_eq_ok.mp hnew
      obtain rfl := Except.ok.inj hk
      exact ⟨rfl, (new_restored hdb).dated⟩
  | execute _ hrun ih =>
      obtain ⟨⟨⟨db, disk⟩, r⟩, hdb, hk⟩ := Outcome.bind_eq_ok.mp hrun
      obtain ⟨rfl, -⟩ := Prod.mk.inj (Except.ok.inj hk)
      obtain ⟨ex, hex, hafter⟩ := execute_ok hdb
      obtain ⟨rfl, -⟩ := Prod.mk.inj hafter
      rw [log_executor] at hex
      exact ⟨ih.1, ih.2.advance (executeSql_advanced hex)⟩
  | snapshot _ _ hrun ih =>
      obtain ⟨⟨⟨db, disk⟩, e⟩, hdb, hk⟩ := Outcome.bind_eq_ok.mp hrun
      obtain ⟨rfl, -⟩ := Prod.mk.inj (Except.ok.inj hk)
      refine ⟨ih.1, ?_⟩
      show DatedTables _ db.executor.tables
      rw [takeSnapshot_executor hdb]
      exact ih.2
  | sweep _ hrun ih =>
      obtain ⟨rfl, -⟩ := Prod.mk.inj (Except.ok.inj (hrun.symm.trans (sweepNow_idle ih.1 _)))
      exact ih

/-- After a sweep the tables are as they should be exactly if none of the rows
has expired: there was nothing to sweep. -/
theorem sweepNow_covers_iff {disk : Disk} {times : Bytes → List Int64}
    (h : Tended dataDir start (s, disk) times)
    (hfits : ∀ name t, s.executor.tables.lookup name = some t →
      extent t.schema.columns + 9 < 2 ^ 32) (now : Int64) :
    ∃ s' removed, s.sweepNow now = .ok (s', removed) ∧
      ((∀ name t, s'.executor.tables.lookup name = some t → Covered now t) ↔
        ∀ name t, s.executor.tables.lookup name = some t →
          ∀ time ∈ times name, ¬ Lapsed now time) := by
  obtain ⟨hidle, hdated⟩ := tended_dated h
  refine ⟨s, 0, sweepNow_idle hidle now, forall_congr' fun name => forall_congr' fun t => ?_⟩
  exact forall_congr' fun ht => (hdated name t ht).covered_iff (hfits name t ht)

end Sweeps

section Examples

attribute [local instance] noDoubles

/-- A row is inserted at 100 into the only table of a database in memory. -/
theorem one_row : ∃ s disk times t, Tended [] Disk.empty (s, disk) times ∧
    (∀ name, name ∈ s.executor.tables.keys → name = Bytes.lit "T") ∧
    s.executor.tables.lookup (Bytes.lit "T") = some t ∧ times (Bytes.lit "T") = [100] ∧
    extent t.schema.columns + 9 < 2 ^ 32 ∧ t.rowCount = 1 ∧ t.scanAll 3701 = .ok [] ∧
    ∃ p ∈ t.rows, t.readValid p = .ok 1 ∧ t.readExpiry p = .ok 3700 := by
  have hrun : (do
      let s₀ ← SweptDatabase.new [] 100 Disk.empty
      let (s₁, _) ← s₀.1.execute 100 s₀.2 (Bytes.lit "CREATE TABLE t (id INT)")
      let (s₂, _) ← s₁.1.execute 100 s₁.2 (Bytes.lit "INSERT INTO t VALUES (1)")
      let t ← Executor.cell (s₂.1.executor.tables.lookup (Bytes.lit "T")).toList 0
      let times := stamp s₁.1.executor.tables s₂.1.executor.tables 100
        (stamp s₀.1.executor.tables s₁.1.executor.tables 100 fun name =>
          List.replicate (rowsIn s₀.1.executor.tables name) 100)
      .ok (decide ((∀ name ∈ s₂.1.executor.tables.keys, name = Bytes.lit "T") ∧
        times (Bytes.lit "T") = [100] ∧ extent t.schema.columns + 9 < 2 ^ 32 ∧ t.rowCount = 1 ∧
        t.scanAll 3701 = .ok [] ∧
        ∃ p ∈ t.rows, t.readValid p = .ok 1 ∧ t.readExpiry p = .ok 3700)) : Outcome _) =
      .ok true := by decide +kernel
  obtain ⟨s₀, hopen, hrun⟩ := Outcome.bind_eq_ok.mp hrun
  obtain ⟨⟨s₁, r₁⟩, hcreate, hrun⟩ := Outcome.bind_eq_ok.mp hrun
  obtain ⟨⟨s₂, r₂⟩, hinsert, hrun⟩ := Outcome.bind_eq_ok.mp hrun
  obtain ⟨t, ht, hrun⟩ := Outcome.bind_eq_ok.mp hrun
  simp only [Except.ok.injEq, decide_eq_true_eq] at hrun
  exact ⟨s₂.1, s₂.2, _, t, ((Tended.opened hopen).execute hcreate).execute hinsert, hrun.1,
    cell_toList ht, hrun.2⟩

/-- In time. -/
theorem sweepNow_covers_young : ∃ s disk times s' removed t,
    Tended [] Disk.empty (s, disk) times ∧ times (Bytes.lit "T") = [100] ∧
    s.sweepNow 3700 = .ok (s', removed) ∧
    s'.executor.tables.lookup (Bytes.lit "T") = some t ∧ Covered 3700 t := by
  obtain ⟨s, disk, times, t, htended, hkeys, ht, htimes, hsize, -⟩ := one_row
  have hone : ∀ name t', s.executor.tables.lookup name = some t' →
      name = Bytes.lit "T" ∧ t' = t := by
    intro name t' ht'
    obtain rfl := hkeys name (Finmap.mem_keys.mpr (Finmap.mem_iff.mpr ⟨t', ht'⟩))
    exact ⟨rfl, Option.some.inj (ht'.symm.trans ht)⟩
  obtain ⟨s', removed, hrun, hiff⟩ := sweepNow_covers_iff htended
    (fun name t' ht' => (hone name t' ht').2 ▸ hsize) 3700
  obtain ⟨rfl, -⟩ := Prod.mk.inj (Except.ok.inj
    (hrun.symm.trans (sweepNow_idle (tended_dated htended).1 3700)))
  refine ⟨s', disk, times, s', removed, t, htended, htimes, hrun, ht,
    hiff.mpr (fun name t' ht' time htime => ?_) _ t ht⟩
  rw [(hone name t' ht').1, htimes, List.mem_singleton] at htime
  rw [htime]
  exact fun hlapsed => absurd hlapsed.2 (by decide)

/-- One second later the row has expired. It is still there after the sweep, and
it is counted, though a scan does not show it. -/
theorem sweepNow_leaves_expired : ∃ s disk times s' removed t,
    Tended [] Disk.empty (s, disk) times ∧ s.sweepNow 3701 = .ok (s', removed) ∧
    s'.executor.tables.lookup (Bytes.lit "T") = some t ∧
    (∃ p ∈ t.rows, t.readValid p = .ok 1 ∧ t.readExpiry p = .ok 3700) ∧
    t.rowCount = 1 ∧ t.scanAll 3701 = .ok [] ∧ ¬ Covered 3701 t := by
  obtain ⟨s, disk, times, t, htended, -, ht, -, -, hcount, hscan, p, hp, hvalid, hexpiry⟩ := one_row
  refine ⟨s, disk, times, s, 0, t, htended, sweepNow_idle (tended_dated htended).1 3701, ht,
    ⟨p, hp, hvalid, hexpiry⟩, hcount, hscan, fun hcovered => ?_⟩
  exact hcovered.rows p hp 3700 hvalid hexpiry ⟨by decide, by decide⟩

end Examples

end FlexQL.Proofs
