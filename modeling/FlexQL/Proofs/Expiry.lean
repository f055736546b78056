import FlexQL.Proofs.Births

/-!
# When a query shows expired rows

A query that scans its tables passes over what has expired. A query that hits
the cache shows what an earlier one saw, so it is right only as long as none
of the rows that one could see has expired in between.
-/

namespace FlexQL.Proofs

open Lib FlexQL.Ref FlexQL.Spec

/-! ## Rows that can be seen -/

theorem visibleRows_births {births : List Birth} {now : Int64} {name : Bytes} {row : Row}
    (hpos : ∀ b ∈ births, 0 < b.time.toInt + defaultTtlSeconds.toNat)
    (h : row ∈ visibleRows now (birthRecords births name)) : row ∈ freshRows births now name := by
  obtain ⟨r, hr, rfl⟩ := List.mem_map.mp h
  obtain ⟨hr, hlive⟩ := List.mem_filter.mp hr
  obtain ⟨b, hb, rfl⟩ := List.mem_map.mp hr
  obtain ⟨hb, hname⟩ := List.mem_filter.mp hb
  refine List.mem_map.mpr ⟨b, List.mem_filter.mpr ⟨hb, ?_⟩, rfl⟩
  rw [decide_eq_true_eq] at hname ⊢
  exact ⟨hname, (recordOf_live_iff (.inr (hpos b hb)) b.row).mp hlive⟩

theorem grounded_mono {names : List Bytes} {f g : Bytes → List Row} {rows : List Row}
    (h : Grounded (names.map f) rows) (hfg : ∀ name ∈ names, ∀ row ∈ f name, row ∈ g name) :
    Grounded (names.map g) rows := by
  obtain ⟨picks, hrows⟩ := h
  refine ⟨picks, fun out hout => ?_⟩
  obtain ⟨sources, hsources, hmade⟩ := hrows out hout
  refine ⟨sources, ?_, hmade⟩
  rw [List.forall₂_map_right_iff] at hsources ⊢
  rw [List.forall₂_iff_get] at hsources ⊢
  exact ⟨hsources.1, fun i hi hi' => hfg _ (List.get_mem _ _) _ (hsources.2 i hi hi')⟩

theorem mem_freshRows {births : List Birth} {now : Int64} {name : Bytes} {row : Row} :
    row ∈ freshRows births now name ↔ ∃ b ∈ births, b.table = name ∧
      WithinTtl defaultTtlSeconds b.time now ∧ b.row = row := by
  simp [freshRows, and_assoc]

/-! ## Runs -/

section Steps

variable {past : List (Int64 × Bytes)} {c c' : Chronicle} {call : Int64 × Bytes}
  {r : QueryResult}

/-- The answer kept under a text is that of an earlier query. -/
def AnswersEarlier (past : List (Int64 × Bytes)) (births : List Birth) (key : Bytes)
    (r : CachedResult) : Prop :=
  ∃ earlier ∈ past, ∃ sel, parseSql earlier.2 = .ok (.ok (.select sel)) ∧
    LRUCache.normalize earlier.2 = key ∧
    Grounded ((reads sel).map (freshRows births earlier.1)) r.rows

/-- What holds between the calls of a run. -/
structure Recorded (past : List (Int64 × Bytes)) (c : Chronicle) : Prop where
  stocked : Stocked c.ex (birthRecords c.births)
  positive : ∀ b ∈ c.births, 0 < b.time.toInt + defaultTtlSeconds.toNat
  cache : Keeps (AnswersEarlier past c.births) c.ex.cache

theorem recorded_new : Recorded [] Chronicle.new :=
  ⟨stocked_new, fun b hb => absurd hb (by simp [Chronicle.new]), keeps_new⟩

theorem AnswersEarlier.more {births births' : List Birth} {key : Bytes} {r : CachedResult}
    (h : AnswersEarlier past births key r) :
    AnswersEarlier (past ++ [call]) (births ++ births') key r := by
  obtain ⟨earlier, hmem, sel, hsel, hkey, hrows⟩ := h
  refine ⟨earlier, List.mem_append_left _ hmem, sel, hsel, hkey, ?_⟩
  refine grounded_mono hrows fun name _ row hrow => ?_
  rw [mem_freshRows] at hrow ⊢
  obtain ⟨b, hb, hrest⟩ := hrow
  exact ⟨b, List.mem_append_left _ hb, hrest⟩

variable [FloatLib]

theorem born_time {ex : Executor} {now : Int64} {sql : Bytes} {b : Birth}
    (h : b ∈ born ex now sql) :
    b.time = now ∧ ∃ stmt, parseSql sql = .ok (.ok (.insert stmt)) := by
  rw [born] at h
  split at h
  · next stmt hparse =>
      split at h
      · obtain ⟨row, -, rfl⟩ := List.mem_map.mp h
        exact ⟨rfl, stmt, hparse⟩
      · exact absurd h (by simp)
  · exact absurd h (by simp)

theorem execInsert_cache {ex ex' : Executor} {now : Int64} {stmt : InsertStmt}
    (h : ex.execInsert now stmt = .ok (ex', r)) : ex'.cache = ex.cache ∨
      ex.cache.invalidateTable (Bytes.toUpper stmt.tableName) = .ok ex'.cache := by
  rw [Executor.execInsert] at h
  split at h
  · obtain ⟨rfl, -⟩ := Prod.mk.inj (Except.ok.inj h)
    exact .inl rfl
  · obtain ⟨⟨t, n, e⟩, -, h⟩ := Outcome.bind_eq_ok.mp h
    cases e with
    | some e =>
        obtain ⟨rfl, -⟩ := Prod.mk.inj (Except.ok.inj h)
        exact .inl rfl
    | none =>
        obtain ⟨cache, hinv, h⟩ := Outcome.bind_eq_ok.mp h
        obtain ⟨rfl, -⟩ := Prod.mk.inj (Except.ok.inj h)
        exact .inr hinv

/-- A query whose earlier answers are all still good shows nothing that has
expired, and leaves an answer of its own at most. -/
theorem Recorded.execSelect {sel : SelectStmt} {ex : Executor} (h : Recorded past c)
    (ht : Timely past c call) (hparse : parseSql call.2 = .ok (.ok (.select sel)))
    (hrun : c.ex.execSelect call.1 sel call.2 = .ok (ex, r)) :
    Keeps (AnswersEarlier (past ++ [call]) c.births) ex.cache ∧
      FreshData c.births call.1 r.rows := by
  have hmore : ∀ {cache}, Keeps (AnswersEarlier past c.births) cache →
      Keeps (AnswersEarlier (past ++ [call]) c.births) cache := by
    intro cache hcache
    refine hcache.imp fun key res _ hres => ?_
    have hres' := @AnswersEarlier.more past call c.births [] key res hres
    rwa [List.append_nil] at hres'
  obtain ⟨cache, cached, hlook, hkeep, hhit⟩ := h.cache.lookupCache call.2
  rw [Executor.execSelect, hlook, Outcome.bind_ok] at hrun
  cases cached with
  | some res =>
      obtain ⟨rfl, rfl⟩ := Prod.mk.inj (Except.ok.inj hrun)
      obtain ⟨hkept, earlier, hmem, sel', hsel', hkey, hrows⟩ := hhit res rfl
      refine ⟨hmore hkeep, reads sel', grounded_mono hrows fun name hname row hrow => ?_⟩
      rw [mem_freshRows] at hrow ⊢
      obtain ⟨b, hb, rfl, hfresh, hrow⟩ := hrow
      exact ⟨b, hb, rfl, ht.select hkept earlier hmem sel' hsel' hkey b hb hname hfresh, hrow⟩
  | none =>
      obtain ⟨answer, hscan, hrun⟩ := Outcome.bind_eq_ok.mp hrun
      obtain ⟨answer', hscan', hground⟩ := selectRows_returns
        (fun name t ht => ⟨(h.stocked.stored name t ht).1, (h.stocked.stored name t ht).1.indexed⟩)
        call.1 sel
      obtain rfl := Except.ok.inj (hscan.symm.trans hscan')
      cases answer with
      | error e =>
          obtain ⟨rfl, rfl⟩ := Prod.mk.inj (Except.ok.inj hrun)
          exact ⟨hmore hkeep, [], [], fun out hout => absurd hout (by simp [QueryResult.failure])⟩
      | ok res =>
          have hfresh : Grounded ((reads sel).map (freshRows c.births call.1)) res.rows :=
            grounded_mono (hground res rfl) fun name _ row hrow =>
              visibleRows_births h.positive hrow
          obtain ⟨cache', hfill, hrun⟩ := Outcome.bind_eq_ok.mp hrun
          obtain ⟨rfl, rfl⟩ := Prod.mk.inj (Except.ok.inj hrun)
          obtain ⟨cache₂, hfill₂, hkeep₂⟩ := (hmore hkeep).fillCache
            ⟨call, by simp, sel, hparse, rfl, hfresh⟩
          obtain rfl := Except.ok.inj (hfill.symm.trans hfill₂)
          exact ⟨hkeep₂, reads sel, hfresh⟩

/-- The cache after a text that is no query. -/
theorem Recorded.cache_other {ex : Executor} (h : Recorded past c) (hsel : ¬ IsSelect call.2)
    (hrun : c.ex.executeSql call.1 call.2 = .ok (ex, r)) :
    Keeps (AnswersEarlier past c.births) ex.cache := by
  obtain ⟨res, hparse, hrun⟩ := Outcome.bind_eq_ok.mp hrun
  cases res with
  | error e =>
      obtain ⟨rfl, -⟩ := Prod.mk.inj (Except.ok.inj hrun)
      exact h.cache
  | ok stmt =>
      cases stmt with
      | select sel => exact absurd ⟨sel, hparse⟩ hsel
      | createTable stmt =>
          rcases execCreateTable_cases hrun with ⟨-, rfl⟩ | ⟨-, -, schema, t, -, -, rfl⟩
          · exact h.cache
          · exact h.cache
      | insert stmt =>
          rcases execInsert_cache hrun with hcache | hinv
          · exact hcache ▸ h.cache
          · obtain ⟨cache, hinv', hkeep⟩ := h.cache.invalidateTable (Bytes.toUpper stmt.tableName)
            obtain rfl := Except.ok.inj (hinv.symm.trans hinv')
            exact hkeep.imp fun _ _ _ hres => hres.2

theorem Recorded.executeSql (h : Recorded past c) (ht : Timely past c call)
    (hrun : c.executeSql call = .ok (c', r)) :
    Recorded (past ++ [call]) c' ∧ (IsSelect call.2 → FreshData c.births call.1 r.rows) := by
  obtain ⟨⟨ex, r'⟩, hex, hk⟩ := Outcome.bind_eq_ok.mp hrun
  obtain ⟨rfl, rfl⟩ := Prod.mk.inj (Except.ok.inj hk)
  have hstocked : Stocked ex (birthRecords (c.births ++ born c.ex call.1 call.2)) :=
    (h.stocked.executeSql ht.fits hex).congr fun name => birthRecords_append _ _ name
  have hpos : ∀ b ∈ c.births ++ born c.ex call.1 call.2,
      0 < b.time.toInt + defaultTtlSeconds.toNat := by
    intro b hb
    rcases List.mem_append.mp hb with hb | hb
    · exact h.positive b hb
    · obtain ⟨htime, stmt, hparse⟩ := born_time hb
      rw [htime]
      exact ht.insert stmt hparse
  by_cases hsel : IsSelect call.2
  · obtain ⟨sel, hparse⟩ := hsel
    have hselect : c.ex.execSelect call.1 sel call.2 = .ok (ex, r') := by
      rwa [Executor.executeSql, hparse, Outcome.bind_ok] at hex
    have hborn : born c.ex call.1 call.2 = [] := born_eq_nil (by simp [hparse])
    obtain ⟨hkeep, hfresh⟩ := h.execSelect ht hparse hselect
    refine ⟨⟨hstocked, hpos, ?_⟩, fun _ => hfresh⟩
    rwa [hborn, List.append_nil]
  · refine ⟨⟨hstocked, hpos, ?_⟩, fun h => absurd h hsel⟩
    exact (h.cache_other hsel hex).imp fun _ _ _ hres => hres.more

end Steps

/-- Without rows that are fresh there is no fresh data. -/
theorem not_freshData {births : List Birth} {now : Int64} {rows : List Row} {out : Row}
    (hnone : ∀ b ∈ births, ¬ WithinTtl defaultTtlSeconds b.time now) (hmem : out ∈ rows)
    (hne : out ≠ []) : ¬ FreshData births now rows := by
  intro ⟨names, picks, hrows⟩
  obtain ⟨sources, hsources, hmade⟩ := hrows out hmem
  cases hmade with
  | nil => exact hne rfl
  | cons hpick _ =>
      obtain ⟨row, hrow, -⟩ := hpick
      obtain ⟨hlt, rfl⟩ := List.getElem?_eq_some_iff.mp hrow
      rw [List.forall₂_map_right_iff, List.forall₂_iff_get] at hsources
      obtain ⟨b, hb, -, hfresh, -⟩ :=
        mem_freshRows.mp (hsources.2 _ hlt (hsources.1 ▸ hlt))
      exact hnone b hb hfresh

section Runs

attribute [local instance] noDoubles

/-- A row, and a query that sees it. -/
def seenOnce : List (Int64 × Bytes) :=
  [(0, Bytes.lit "CREATE TABLE t (id INT)"), (0, Bytes.lit "INSERT INTO t VALUES (1)"),
    (1, Bytes.lit "SELECT * FROM t")]

/-- The same query again, at a later time. -/
theorem seenOnce_again {now : Int64} (hrun : (do
      let x ← Actions.runAll Chronicle.executeSql Chronicle.new seenOnce
      let y ← x.1.executeSql (now, Bytes.lit "SELECT * FROM t")
      .ok (x.1.births, y.2.rows) : Outcome _) =
        .ok ([⟨Bytes.lit "T", [.int 1], 0⟩], [[.int 1]])) :
    ∃ c rs c' r, Actions.runAll Chronicle.executeSql Chronicle.new seenOnce = .ok (c, rs) ∧
      c.executeSql (now, Bytes.lit "SELECT * FROM t") = .ok (c', r) ∧
      c.births = [⟨Bytes.lit "T", [.int 1], 0⟩] ∧ r.rows = [[.int 1]] := by
  obtain ⟨⟨c, rs⟩, hx, hrun⟩ := Outcome.bind_eq_ok.mp hrun
  obtain ⟨⟨c', r⟩, hy, hrun⟩ := Outcome.bind_eq_ok.mp hrun
  obtain ⟨hbirths, hrows⟩ := Prod.mk.inj (Except.ok.inj hrun)
  exact ⟨c, rs, c', r, hx, hy, hbirths, hrows⟩

end Runs

end FlexQL.Proofs
