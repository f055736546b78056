import FlexQL.Proofs.Reach

/-!
# An `INSERT` appends its tuples

A tuple goes in just when its literals are ones of the columns; a statement
goes through when all of its tuples go in. Then the table has the old rows and
behind them the rows of the tuples, all of them visible at the time of the
insertion.
-/

namespace FlexQL.Proofs

open Lib FlexQL.Ref FlexQL.Spec

theorem ttl_toInt (ttl : UInt32) : ttl.toUInt64.toInt64.toInt = ttl.toNat := by
  have hlt := ttl.toNat_lt
  have hnat : ttl.toUInt64.toBitVec.toNat = ttl.toNat := by
    rw [UInt64.toNat_toBitVec, UInt32.toNat_toUInt64]
  change ttl.toUInt64.toBitVec.toInt = _
  rw [BitVec.toInt_eq_toNat_of_lt (by rw [hnat]; omega), hnat]

/-- The stored expiry is the end of the lifetime. Where the sum wraps around it
is negative, which is taken for never. -/
theorem unexpired_iff {ttl : UInt32} {now later : Int64}
    (h0 : ttl.toNat = 0 ∨ 0 < now.toInt + ttl.toNat) :
    (!(0 < expiryAt ttl now && expiryAt ttl now < later)) = true ↔ WithinTtl ttl now later := by
  have hzero : ttl = 0 ↔ ttl.toNat = 0 := by
    rw [← UInt32.toNat_inj]
    rfl
  rw [Bool.not_eq_true', Bool.and_eq_false_iff, decide_eq_false_iff_not, decide_eq_false_iff_not,
    Int64.lt_iff_toInt_lt, Int64.lt_iff_toInt_lt, WithinTtl, hzero, expiryAt]
  split
  · next hpos =>
      have hpos' : 0 < ttl.toNat := UInt32.lt_iff_toNat_lt.mp hpos
      have hnow := now.toInt_lt
      have hmin := now.le_toInt
      have hlater := later.toInt_lt
      have httl := ttl.toNat_lt
      rw [Int64.toInt_add, ttl_toInt, Int64.toInt_zero]
      by_cases hmax : now.toInt + ttl.toNat < 2 ^ 63
      · rw [Int.bmod_eq_of_le (by omega) (by omega)]
        omega
      · have hwrap : (now.toInt + (ttl.toNat : Int)).bmod (2 ^ 64) =
            now.toInt + ttl.toNat - 2 ^ 64 := by
          rw [← Int.sub_bmod_right]
          exact Int.bmod_eq_of_le (by omega) (by omega)
        rw [hwrap]
        omega
  · next hpos =>
      have hpos' : ¬ 0 < ttl.toNat := fun h => hpos (UInt32.lt_iff_toNat_lt.mpr h)
      rw [Int64.toInt_zero]
      omega

theorem recordOf_live_iff {ttl : UInt32} {now later : Int64}
    (h0 : ttl.toNat = 0 ∨ 0 < now.toInt + ttl.toNat) (row : Row) :
    (recordOf ttl (now, row)).live later = true ↔ WithinTtl ttl now later := by
  rw [← unexpired_iff h0, Record.live, recordOf, Bool.true_and]

/-- A row is visible when it is inserted, even where adding the lifetime to
the clock wraps around. -/
theorem recordOf_live (ttl : UInt32) (now : Int64) (row : Row) :
    (recordOf ttl (now, row)).live now = true := by
  have hexp : ¬ (0 < expiryAt ttl now ∧ expiryAt ttl now < now) := by
    rw [expiryAt]
    split
    · rintro ⟨hpos, hlt⟩
      rw [Int64.lt_iff_toInt_lt, Int64.toInt_add, ttl_toInt] at hpos hlt
      have httl := ttl.toNat_lt
      have hmax := now.toInt_lt
      have hmin := now.le_toInt
      simp only [Int.bmod, Int64.toInt_zero] at hpos hlt
      split at hpos <;> omega
    · exact fun h => absurd h.1 (by decide)
  have hlive : (0 < expiryAt ttl now && expiryAt ttl now < now) = false := by
    rw [Bool.and_eq_false_iff, decide_eq_false_iff_not, decide_eq_false_iff_not]
    exact Decidable.not_and_iff_not_or_not.mp hexp
  rw [Record.live, recordOf, hlive]
  rfl

theorem forall₂_mem_right {α β : Type} {R : α → β → Prop} {l : List α} {l' : List β}
    (h : List.Forall₂ R l l') {b : β} (hb : b ∈ l') : ∃ a ∈ l, R a b := by
  obtain ⟨i, hi, rfl⟩ := List.mem_iff_getElem.mp hb
  have hi' : i < l.length := h.length_eq ▸ hi
  exact ⟨l[i], List.getElem_mem hi', (List.forall₂_iff_get.mp h).2 i hi' hi⟩

theorem forall₂_and_iff {α β : Type} {R S : α → β → Prop} {l : List α} {l' : List β} :
    List.Forall₂ (fun a b => R a b ∧ S a b) l l' ↔ List.Forall₂ R l l' ∧ List.Forall₂ S l l' := by
  constructor
  · exact fun h => ⟨h.imp fun _ _ hab => hab.1, h.imp fun _ _ hab => hab.2⟩
  · rintro ⟨hR, hS⟩
    induction hR with
    | nil => exact .nil
    | cons hab _ ih =>
        obtain ⟨hS₁, hS₂⟩ := List.forall₂_cons.mp hS
        exact .cons ⟨hab, hS₁⟩ (ih hS₂)

section Literals

variable [FloatLib] {s : Schema} {tuple : List Bytes} {row : Row}

theorem parseLiteral_type {literal : Bytes} {ty : DataType} {v : Value}
    (h : Executor.parseLiteral literal ty = .ok v) : v.type = ty := by
  cases ty with
  | varchar => rw [← Except.ok.inj h]; rfl
  | unknown b => exact absurd h (by simp [Executor.parseLiteral])
  | int | decimal | datetime =>
      rw [Executor.parseLiteral] at h
      split at h
      · rw [← Except.ok.inj h]; rfl
      · exact absurd h (by simp)

theorem takes_iff {c : ColumnDef} {literal : Bytes} {v : Value} :
    Takes c literal v ↔ Executor.parseLiteral literal c.type = .ok v ∧ Accepts c v :=
  ⟨fun h => ⟨h.parsed, parseLiteral_type h.parsed, h.short⟩, fun h => ⟨h.1, h.2.short⟩⟩

theorem takesTuple_iff :
    TakesTuple s tuple row ↔ Executor.parseTuple s tuple = .ok row ∧ s.validateRow row = none := by
  rw [TakesTuple, validateRow_eq_none, Executor.parseTuple]
  by_cases hlen : tuple.length = s.columns.length
  · have hcols : (tuple.zip s.columns).map (·.2) = s.columns := by
      rw [← List.unzip_snd, List.unzip_zip hlen]
    have hsplit : List.Forall₂ Accepts ((tuple.zip s.columns).map (·.2)) row ↔
        List.Forall₂ (fun p v => Accepts p.2 v) (tuple.zip s.columns) row :=
      List.forall₂_map_left_iff
    rw [hcols] at hsplit
    simp only [takes_iff, forall₂_and_iff]
    rw [if_neg (not_not.mpr hlen), Outcome.mapM_eq_ok, hsplit]
    exact and_iff_right hlen
  · rw [if_pos hlen]
    exact ⟨fun h => absurd h.1 hlen, fun h => absurd h.1 (by simp)⟩

end Literals

/-! ## The loop over the tuples -/

/-- The records of rows inserted at one time. -/
def recordsOf (ttl : UInt32) (now : Int64) (rows : List Row) : List Record :=
  rows.map fun row => recordOf ttl (now, row)

theorem recordsOf_live (ttl : UInt32) (now : Int64) (rows : List Row) :
    ((recordsOf ttl now rows).filter (·.live now)).map (·.values) = rows := by
  have hall : ∀ r ∈ recordsOf ttl now rows, r.live now = true := by
    intro r hr
    obtain ⟨row, -, rfl⟩ := List.mem_map.mp hr
    exact recordOf_live ttl now row
  rw [List.filter_eq_self.mpr hall, recordsOf, List.map_map]
  exact List.map_id'' (fun _ => rfl) rows

theorem recordsOf_count (ttl : UInt32) (now : Int64) (rows : List Row) :
    (recordsOf ttl now rows).countP (·.valid) = rows.length := by
  rw [List.countP_eq_length.mpr, recordsOf, List.length_map]
  intro r hr
  obtain ⟨row, -, rfl⟩ := List.mem_map.mp hr
  rfl

section Tuples

variable [FloatLib] {t : Table} {rs : List Record}

/-- The loop ends: behind the last tuple with all of their rows stored, or at
a tuple that stands for no row. -/
theorem Rep.insertTuples (h : Rep t rs) (now : Int64) (tuples : List (List Bytes)) (n : Nat) :
    ∃ t' n' e, Executor.insertTuples now tuples t n = .ok (t', n', e) ∧ t'.schema = t.schema ∧
      ((e = none ∧ ∃ rows, List.Forall₂ (TakesTuple t.schema) tuples rows ∧
          Rep t' (rs ++ recordsOf t.ttlSeconds now rows)) ∨
        (e ≠ none ∧ ∃ tuple ∈ tuples, ∀ row, ¬ TakesTuple t.schema tuple row)) := by
  induction tuples generalizing t rs n with
  | nil => exact ⟨t, n, none, rfl, rfl, .inl ⟨rfl, [], .nil, by simpa [recordsOf] using h⟩⟩
  | cons tuple tuples ih =>
      rw [Executor.insertTuples]
      cases hp : Executor.parseTuple t.schema tuple with
      | error e =>
          refine ⟨t, n, some e, rfl, rfl, .inr ⟨by simp, tuple, by simp, fun row hrow => ?_⟩⟩
          rw [(takesTuple_iff.mp hrow).1] at hp
          exact absurd hp (by simp)
      | ok row =>
          cases hv : t.schema.validateRow row with
          | some e =>
              refine ⟨t, n, some e, ?_, rfl,
                .inr ⟨by simp, tuple, by simp, fun row' hrow => ?_⟩⟩
              · simp only [insert_rejected hv, Outcome.bind_ok]
              · obtain ⟨hp', hv'⟩ := takesTuple_iff.mp hrow
                obtain rfl := Except.ok.inj (hp.symm.trans hp')
                rw [hv] at hv'
                exact absurd hv' (by simp)
          | none =>
              obtain ⟨t₁, hins, hrep, hs, httl⟩ := h.insert_stored hv now
              obtain ⟨t', n', e, hrun, hs', hcases⟩ := ih hrep (n + 1)
              refine ⟨t', n', e, ?_, hs'.trans hs, ?_⟩
              · simp only [hins, Outcome.bind_ok]
                exact hrun
              · rw [hs] at hcases
                rcases hcases with ⟨he, rows, hrows, hrep'⟩ | ⟨he, bad, hmem, hbad⟩
                · refine .inl ⟨he, row :: rows, .cons (takesTuple_iff.mpr ⟨hp, hv⟩) hrows, ?_⟩
                  rwa [httl, List.append_assoc] at hrep'
                · exact .inr ⟨he, bad, List.mem_cons_of_mem _ hmem, hbad⟩

end Tuples

/-! ## The statement -/

section Statement

variable [FloatLib] {ex : Executor}

/-- `exec_insert` returns; it succeeds just when the table takes every tuple,
and then appends their rows and touches no other table. -/
theorem execInsert_appends (hreach : Reachable ex)
    (hfits : ∀ name t, ex.tables.lookup name = some t →
      t.schema.columns ≠ [] ∧ extent t.schema.columns < 2 ^ 32 - 9)
    (now : Int64) (stmt : InsertStmt) :
    ∃ ex' r, ex.execInsert now stmt = .ok (ex', r) ∧
      (r.success = true ↔ ∃ t, ex.tables.lookup (Bytes.toUpper stmt.tableName) = some t ∧
        ∀ tuple ∈ stmt.batchValues, ∃ row, TakesTuple t.schema tuple row) ∧
      (r.success = true → ∀ t, ex.tables.lookup (Bytes.toUpper stmt.tableName) = some t →
        ∃ t' rows before, ex'.tables.lookup (Bytes.toUpper stmt.tableName) = some t' ∧
          List.Forall₂ (TakesTuple t.schema) stmt.batchValues rows ∧
          t.scanAll now = .ok before ∧ t'.scanAll now = .ok (before ++ rows) ∧
          t'.rowCount = t.rowCount + UInt64.ofNat stmt.batchValues.length) ∧
      ∀ name, name ≠ Bytes.toUpper stmt.tableName →
        ex'.tables.lookup name = ex.tables.lookup name := by
  have hcons := reachable_consistent hreach
  obtain ⟨s, hs⟩ := hcons.cache
  rw [Executor.execInsert]
  cases ht : ex.tables.lookup (Bytes.toUpper stmt.tableName) with
  | none =>
      refine ⟨ex, _, rfl, ?_, ?_, fun _ _ => rfl⟩
      · exact iff_of_false (by simp [QueryResult.failure]) (by simp)
      · exact fun h => absurd h (by simp [QueryResult.failure])
  | some t =>
      have hsize : extent t.schema.columns + 9 < 2 ^ 32 := by
        have := (hfits _ t ht).2
        omega
      obtain ⟨rs, hrep⟩ := (hcons.tables _ t ht).stores hsize
      obtain ⟨t', n, e, hrun, -, hcases⟩ := hrep.insertTuples now stmt.batchValues 0
      have hother : ∀ name, name ≠ Bytes.toUpper stmt.tableName →
          (ex.tables.insert (Bytes.toUpper stmt.tableName) t').lookup name =
            ex.tables.lookup name := fun name hne => Finmap.lookup_insert_of_ne _ hne
      simp only [hrun, Outcome.bind_ok]
      rcases hcases with ⟨rfl, rows, hrows, hrep'⟩ | ⟨he, bad, hmem, hbad⟩
      · obtain ⟨cache, hinv, -⟩ := invalidateTable_refines hs (Bytes.toUpper stmt.tableName)
        simp only [hinv, Outcome.bind_ok]
        refine ⟨_, _, rfl, iff_of_true rfl ⟨t, rfl, fun tuple hmem => ?_⟩, fun _ t₁ ht₁ => ?_,
          hother⟩
        · obtain ⟨i, hi, rfl⟩ := List.getElem_of_mem hmem
          exact ⟨_, (List.forall₂_iff_get.mp hrows).2 i hi (hrows.length_eq ▸ hi)⟩
        · obtain rfl := Option.some.inj ht₁
          refine ⟨t', rows, _, Finmap.lookup_insert _, hrows, hrep.scanAll now, ?_, ?_⟩
          · rw [hrep'.scanAll now, List.filter_append, List.map_append, recordsOf_live]
          · rw [hrep'.count, hrep.count, List.countP_append, recordsOf_count, hrows.length_eq,
              UInt64.ofNat_add]
      · obtain ⟨msg, rfl⟩ := Option.ne_none_iff_exists'.mp he
        refine ⟨_, _, rfl, ?_, ?_, hother⟩
        · refine iff_of_false (by simp [QueryResult.failure]) ?_
          rintro ⟨t₁, ht₁, hall⟩
          obtain rfl := Option.some.inj ht₁
          obtain ⟨row, hrow⟩ := hall bad hmem
          exact hbad row hrow
        · exact fun h => absurd h (by simp [QueryResult.failure])

end Statement

section Runs

attribute [local instance] noDoubles

/-- A table `T` of two integers. -/
def pairStmt : CreateTableStmt :=
  ⟨Bytes.lit "t", [⟨Bytes.lit "id", Bytes.lit "INT", 255⟩, ⟨Bytes.lit "n", Bytes.lit "INT", 255⟩]⟩

theorem pair_reachable : ∃ ex t, Reachable ex ∧ t.schema = pairSchema ∧
    ∀ name, ex.tables.lookup name = if name = Bytes.lit "T" then some t else none := by
  obtain ⟨t, hnew, -, -, hs, -⟩ := rep_new (Bytes.lit "T") pairSchema_fits defaultTtlSeconds
  have hname : Bytes.toUpper pairStmt.tableName = Bytes.lit "T" := by decide
  have hschema : Executor.buildSchema Schema.empty pairStmt.columns = .ok pairSchema := rfl
  have hrun : Executor.new.execute 0 (.createTable pairStmt) [] =
      .ok (⟨(∅ : Finmap fun _ : Bytes => Table).insert (Bytes.lit "T") t, Executor.new.cache⟩,
        .done (Bytes.lit "Table " ++ Bytes.lit "T" ++ Bytes.lit " created")) := by
    rw [Executor.execute, Executor.execCreateTable, hname, hschema]
    simp only [Executor.new, Finmap.lookup_empty, Option.isSome_none, Bool.false_eq_true, if_false,
      hnew, Outcome.bind_ok]
  refine ⟨_, t, .execute .new hrun, hs, fun name => ?_⟩
  by_cases hn : name = Bytes.lit "T"
  · rw [hn, if_pos rfl, Finmap.lookup_insert]
  · rw [if_neg hn, Finmap.lookup_insert_of_ne _ hn, Finmap.lookup_empty]

theorem execInsert_appends_pair : ∃ ex ex' t t' r, Reachable ex ∧
    ex.execInsert 5 ⟨Bytes.lit "t", [[Bytes.lit "1", Bytes.lit "2"]]⟩ = .ok (ex', r) ∧
    r.success = true ∧ ex.tables.lookup (Bytes.lit "T") = some t ∧
    ex'.tables.lookup (Bytes.lit "T") = some t' ∧
    ∃ before, t.scanAll 5 = .ok before ∧ t'.scanAll 5 = .ok (before ++ [[.int 1, .int 2]]) := by
  obtain ⟨ex, t, hreach, hs, htables⟩ := pair_reachable
  have hfits : ∀ name t', ex.tables.lookup name = some t' →
      t'.schema.columns ≠ [] ∧ extent t'.schema.columns < 2 ^ 32 - 9 := by
    intro name t' ht'
    rw [htables] at ht'
    split at ht'
    · rw [← Option.some.inj ht', hs]
      decide
    · exact absurd ht' (by simp)
  have hlook : ex.tables.lookup (Bytes.toUpper (Bytes.lit "t")) = some t := by
    rw [htables, if_pos (by decide)]
  have htakes : TakesTuple t.schema [Bytes.lit "1", Bytes.lit "2"] [.int 1, .int 2] := by
    rw [hs]
    exact takesTuple_iff.mpr ⟨by decide +kernel, by decide +kernel⟩
  obtain ⟨ex', r, hrun, hiff, happ, -⟩ := execInsert_appends hreach hfits 5
    ⟨Bytes.lit "t", [[Bytes.lit "1", Bytes.lit "2"]]⟩
  have hok : r.success = true := hiff.mpr ⟨t, hlook, fun tuple hmem => by
    rw [List.mem_singleton.mp hmem]
    exact ⟨_, htakes⟩⟩
  obtain ⟨t', rows, before, ht', hrows, hscan, hscan', -⟩ := happ hok t hlook
  obtain rfl : rows = [[.int 1, .int 2]] := by
    obtain ⟨row, _, hrow, hnil, rfl⟩ := List.forall₂_cons_left_iff.mp hrows
    obtain rfl := List.forall₂_nil_left_iff.mp hnil
    have := (takesTuple_iff.mp hrow).1.symm.trans (takesTuple_iff.mp htakes).1
    rw [Except.ok.inj this]
  exact ⟨ex, ex', t, t', r, hreach, hrun, hok, hlook, ht', before, hscan, hscan'⟩

end Runs

end FlexQL.Proofs
