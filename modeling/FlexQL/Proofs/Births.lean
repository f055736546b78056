import FlexQL.Proofs.Insert
import FlexQL.Proofs.Queries
import FlexQL.Proofs.Statements
import FlexQL.Proofs.Transparency
import FlexQL.Spec.Births

/-!
# Harmless texts run through, and store what they say

The parser throws at the length of a `VARCHAR` and nowhere else. A table is
known by its records; an `INSERT` adds the rows it takes to them, and no other
statement adds any. With the records known, every statement that can be
parsed returns.
-/

namespace FlexQL.Proofs

open Lib FlexQL.Ref FlexQL.Spec FlexQL.Spec.Grammar

/-! ## The parser -/

section Parsing

/-- The step of the parser does not throw. -/
def Quiet {α : Type} (r : ParseResult α) : Prop := r ≠ .error .thrown

variable {α β : Type} {ts ts' : List Token}

theorem quiet_ok (a : α) : Quiet (.ok a : ParseResult α) := by simp [Quiet]

theorem quiet_fail (text : Bytes) : Quiet (Parser.fail text : ParseResult α) := by
  simp [Quiet, Parser.fail]

theorem Quiet.of_error {e : ParseError} (h : Quiet (.error e : ParseResult α)) :
    Quiet (.error e : ParseResult β) :=
  fun he => h (congrArg Except.error (Except.error.inj he))

theorem Quiet.bind {r : ParseResult α} {f : α → ParseResult β} (h : Quiet r)
    (hf : ∀ a, r = .ok a → Quiet (f a)) : Quiet (r >>= f) := by
  cases r with
  | error e => exact h.of_error
  | ok a => exact hf a rfl

theorem quiet_expect (type : TokenType) (context : Bytes) (ts : List Token) :
    Quiet (Parser.expect type context ts) := by
  rw [Parser.expect]
  split
  · exact quiet_ok _
  · exact quiet_fail _

theorem quiet_identifier (text : Bytes) (ts : List Token) :
    Quiet (Parser.identifier text ts) := by
  rw [Parser.identifier]
  split
  · exact quiet_ok _
  · exact quiet_fail _

theorem lengthsFit_suffix (h : LengthsFit ts) (hs : ts' <:+ ts) : LengthsFit ts' :=
  fun rest hrest => h rest ((List.mem_tails _ _).mpr (((List.mem_tails _ _).mp hrest).trans hs))

theorem quiet_columnType (name : Bytes) (ts : List Token) :
    Quiet (Parser.columnType name ts) := by
  rw [Parser.columnType]
  split
  all_goals first
    | exact quiet_ok _
    | exact quiet_fail _

theorem columnType_varchar {name : Bytes}
    (h : Parser.columnType name ts = .ok (Bytes.lit "VARCHAR", ts')) : kind ts = .kwVarchar := by
  rw [Parser.columnType] at h
  split at h
  · exact absurd (Prod.mk.inj (Except.ok.inj h)).1 (by decide)
  · exact absurd (Prod.mk.inj (Except.ok.inj h)).1 (by decide)
  · next hk => exact hk
  · exact absurd (Prod.mk.inj (Except.ok.inj h)).1 (by decide)
  · exact absurd h (by simp [Parser.fail])

theorem quiet_columnDef (h : LengthsFit ts) : Quiet (Parser.columnDef ts) := by
  refine (quiet_identifier _ ts).bind fun ⟨name, ts₁⟩ h₁ => ?_
  obtain ⟨-, -, rfl⟩ := Parser.identifier_ok h₁
  refine (quiet_columnType name _).bind fun ⟨typeName, ts₂⟩ h₂ => ?_
  obtain rfl := Parser.columnType_ok h₂
  refine Quiet.bind ?_ fun _ _ => quiet_ok _
  rw [Parser.varcharLength]
  split
  · next hparen =>
      obtain ⟨rfl, hparen⟩ := hparen
      split
      · exact quiet_fail _
      · next hint =>
          have hfit := h ts.tail ((List.mem_tails _ _).mpr (List.tail_suffix ts))
            (columnType_varchar h₂) hparen (not_not.mp hint)
          obtain ⟨n, hn⟩ := Option.isSome_iff_exists.mp hfit
          rw [hn]
          exact (quiet_expect _ _ _).bind fun _ _ => quiet_ok _
  · exact quiet_ok _

theorem quiet_columnDefs (h : LengthsFit ts) : Quiet (Parser.columnDefs ts) := by
  induction hlen : ts.length using Nat.strongRecOn generalizing ts with
  | ind len ih =>
      subst hlen
      rw [Parser.columnDefs]
      split
      · exact quiet_ok _
      · split
        · next e he => exact (he ▸ quiet_columnDef h).of_error
        · next col ts₁ hcol =>
            split
            · have hlt := Parser.columnDef_lt hcol
              have hsuffix := (Parser.columnDef_ok hcol).2.2
              have hlen : ts₁.tail.length < ts.length := by
                rw [List.length_tail]
                omega
              have hfit := lengthsFit_suffix h
                ((List.tail_suffix ts₁).trans (hsuffix.trans (List.tail_suffix ts)))
              exact (ih _ hlen hfit rfl).bind fun _ _ => quiet_ok _
            · exact quiet_ok _

theorem quiet_tuple (ts : List Token) : Quiet (Parser.tuple ts) :=
  (quiet_expect _ _ ts).bind fun _ _ => (quiet_expect _ _ _).bind fun _ _ => quiet_ok _

theorem quiet_tuples (ts : List Token) : Quiet (Parser.tuples ts) := by
  induction hlen : ts.length using Nat.strongRecOn generalizing ts with
  | ind len ih =>
      subst hlen
      rw [Parser.tuples]
      split
      · next e he => exact (he ▸ quiet_tuple ts).of_error
      · next row ts₁ hrow =>
          split
          · have hlt := Parser.tuple_lt hrow
            have hlen : ts₁.tail.length < ts.length := by
              rw [List.length_tail]
              omega
            exact (ih _ hlen _ rfl).bind fun _ _ => quiet_ok _
          · exact quiet_ok _

theorem quiet_columnRefs (ts : List Token) : Quiet (Parser.columnRefs ts) := by
  induction hlen : ts.length using Nat.strongRecOn generalizing ts with
  | ind len ih =>
      subst hlen
      rw [Parser.columnRefs]
      split
      · next hid =>
          split
          · have hlt := @Parser.tail_lt ts (by rw [hid]; decide)
            have hle := Parser.columnRef_le ts
            have hlen : (Parser.columnRef ts).2.tail.length < ts.length := by
              rw [List.length_tail]
              omega
            exact (ih _ hlen _ rfl).bind fun _ _ => quiet_ok _
          · exact quiet_ok _
      · exact quiet_fail _

theorem quiet_parseJoin (ts : List Token) : Quiet (Parser.parseJoin ts) := by
  rw [Parser.parseJoin]
  split
  · refine (quiet_expect _ _ _).bind fun _ _ => (quiet_identifier _ _).bind fun _ _ =>
      (quiet_expect _ _ _).bind fun _ _ => ?_
    dsimp only
    split
    · exact quiet_fail _
    · exact quiet_ok _
  · exact quiet_ok _

theorem quiet_selectList (ts : List Token) : Quiet (Parser.selectList ts) := by
  rw [Parser.selectList]
  split
  · exact quiet_ok _
  · exact (quiet_columnRefs ts).bind fun _ _ => quiet_ok _

theorem quiet_parse (h : kind ts = .kwCreate → LengthsFit ts) : Quiet (Parser.parse ts) := by
  rw [Parser.parse]
  split
  · next hk =>
      refine (quiet_expect _ _ _).bind fun ts₁ h₁ => (quiet_identifier _ _).bind fun r h₂ =>
        (quiet_expect _ _ _).bind fun ts₃ h₃ => ?_
      obtain ⟨-, rfl⟩ := Parser.expect_ok h₁
      obtain ⟨-, -, h₂⟩ := Parser.identifier_ok h₂
      obtain ⟨-, rfl⟩ := Parser.expect_ok h₃
      have hsuffix : r.2.tail <:+ ts := by
        rw [h₂]
        exact (List.tail_suffix _).trans ((List.tail_suffix _).trans
          ((List.tail_suffix _).trans (List.tail_suffix ts)))
      exact (quiet_columnDefs (lengthsFit_suffix (h hk) hsuffix)).bind fun _ _ =>
        (quiet_expect _ _ _).bind fun _ _ => quiet_ok _
  · exact (quiet_expect _ _ _).bind fun _ _ => (quiet_identifier _ _).bind fun _ _ =>
      (quiet_expect _ _ _).bind fun _ _ => (quiet_tuples _).bind fun _ _ => quiet_ok _
  · exact (quiet_selectList _).bind fun _ _ => (quiet_expect _ _ _).bind fun _ _ =>
      (quiet_identifier _ _).bind fun _ _ => (quiet_parseJoin _).bind fun _ _ => quiet_ok _
  · exact quiet_fail _

theorem parseSql_returns {sql : Bytes} (h : Harmless sql) : ∃ res, parseSql sql = .ok res := by
  have hquiet := quiet_parse h.lengths
  rw [parseSql]
  dsimp only
  split
  · exact ⟨_, rfl⟩
  · split
    · exact ⟨_, rfl⟩
    · exact ⟨_, rfl⟩
    · next hthrown => exact absurd hthrown hquiet

theorem parseSql_error {sql : Bytes} {fault : Fault} (h : parseSql sql = .error fault) :
    fault = .thrown := by
  rw [parseSql] at h
  dsimp only at h
  split at h
  · exact absurd h (by simp)
  · split at h
    · exact absurd h (by simp)
    · exact absurd h (by simp)
    · exact (Except.error.inj h).symm

end Parsing

/-! ## The rows of a table -/

section Rows

variable [FloatLib] {t : Table} {rs : List Record}

/-- The loop over the tuples returns, and adds the rows it takes. -/
theorem Rep.insertTuples_taken (h : Rep t rs) (now : Int64) (tuples : List (List Bytes)) (n : Nat) :
    ∃ t' n' e, Executor.insertTuples now tuples t n = .ok (t', n', e) ∧
      Rep t' (rs ++ recordsOf t.ttlSeconds now (takenRows t.schema tuples)) ∧
      t'.schema = t.schema ∧ t'.ttlSeconds = t.ttlSeconds := by
  have hstop : ∀ e, ∃ t' n' e', (.ok (t, n, some e) : Outcome (Table × Nat × Option Bytes)) =
      .ok (t', n', e') ∧ Rep t' (rs ++ recordsOf t.ttlSeconds now []) ∧ t'.schema = t.schema ∧
      t'.ttlSeconds = t.ttlSeconds :=
    fun e => ⟨t, n, some e, rfl, by simpa [recordsOf] using h, rfl, rfl⟩
  induction tuples generalizing t rs n with
  | nil => exact ⟨t, n, none, rfl, by simpa [takenRows, recordsOf] using h, rfl, rfl⟩
  | cons tuple tuples ih =>
      rw [Executor.insertTuples, takenRows]
      cases hp : Executor.parseTuple t.schema tuple with
      | error e => exact hstop e
      | ok row =>
          cases hv : t.schema.validateRow row with
          | some e =>
              simp only [insert_rejected hv, Outcome.bind_ok, hv, reduceCtorEq, if_false]
              exact hstop e
          | none =>
              obtain ⟨t₁, hins, hrep, hs, httl⟩ := h.insert_stored hv now
              obtain ⟨t', n', e, hrun, hrep', hs', httl'⟩ := ih hrep (n + 1) fun e =>
                ⟨t₁, n + 1, some e, rfl, by simpa [recordsOf] using hrep, rfl, rfl⟩
              refine ⟨t', n', e, ?_, ?_, hs'.trans hs, httl'.trans httl⟩
              · simp only [hins, Outcome.bind_ok]
                exact hrun
              · rw [hs, httl, List.append_assoc] at hrep'
                simp only [hv, if_true]
                exact hrep'

end Rows

/-! ## Executors -/

/-- The executor is in order, and each of its tables stores the records of
its name. -/
structure Stocked (ex : Executor) (rows : Bytes → List Record) : Prop where
  cache : ∃ s, Refines ex.cache s
  stored : ∀ name t, ex.tables.lookup name = some t →
    Rep t (rows name) ∧ t.ttlSeconds = defaultTtlSeconds
  absent : ∀ name, ex.tables.lookup name = none → rows name = []

section Executors

variable {ex ex' : Executor} {rows : Bytes → List Record} {now : Int64} {sql : Bytes}
  {r : QueryResult}

theorem stocked_new : Stocked Executor.new fun _ => [] :=
  ⟨⟨_, refines_new (by decide)⟩, fun name t ht => absurd ht (by simp [Executor.new]),
    fun _ _ => rfl⟩

theorem Rep.indexed {t : Table} {rs : List Record} (h : Rep t rs) : Indexed t.schema :=
  indexed_of_built h.fits.built

theorem Stocked.consistent (h : Stocked ex rows) : Consistent ex :=
  ⟨h.cache, fun name t ht =>
    have hrep := (h.stored name t ht).1
    ⟨hrep.fits.built, hrep.fits.pk, fun _ => ⟨_, hrep⟩⟩⟩

/-- A table put in the place of another, or of none. -/
theorem Stocked.insertTable {cache : LRUCache} {t : Table} {rs : List Record}
    (h : Stocked ex rows) (name : Bytes) (hc : ∃ s, Refines cache s) (ht : Rep t rs)
    (httl : t.ttlSeconds = defaultTtlSeconds) :
    Stocked ⟨ex.tables.insert name t, cache⟩ (Function.update rows name rs) := by
  refine ⟨hc, fun name' t' hlook => ?_, fun name' hlook => ?_⟩
  · by_cases hn : name' = name
    · subst hn
      rw [Finmap.lookup_insert] at hlook
      rw [Function.update_self, ← Option.some.inj hlook]
      exact ⟨ht, httl⟩
    · rw [Finmap.lookup_insert_of_ne _ hn] at hlook
      rw [Function.update_of_ne hn]
      exact h.stored name' t' hlook
  · have hn : name' ≠ name := by
      intro hn
      rw [hn, Finmap.lookup_insert] at hlook
      exact absurd hlook (by simp)
    rw [Finmap.lookup_insert_of_ne _ hn] at hlook
    rw [Function.update_of_ne hn]
    exact h.absent name' hlook

/-- The records the births stand for, table by table. -/
def birthRecords (births : List Birth) (name : Bytes) : List Record :=
  (births.filter (·.table = name)).map fun b => recordOf defaultTtlSeconds (b.time, b.row)

theorem birthRecords_append (births births' : List Birth) (name : Bytes) :
    birthRecords (births ++ births') name =
      birthRecords births name ++ birthRecords births' name := by
  rw [birthRecords, List.filter_append, List.map_append]
  rfl

theorem birthRecords_map (rows : List Row) (name name' : Bytes) (now : Int64) :
    birthRecords (rows.map (⟨name, ·, now⟩)) name' =
      if name' = name then recordsOf defaultTtlSeconds now rows else [] := by
  rw [birthRecords, List.filter_map, List.map_map]
  split
  · next hn =>
      rw [List.filter_eq_self.mpr fun row _ => by simp [hn]]
      rfl
  · next hn =>
      rw [List.filter_eq_nil_iff.mpr fun row _ => by simpa using fun h => hn h.symm]
      rfl

theorem Stocked.of_tables (h : Stocked ex rows) (ht : ex'.tables = ex.tables)
    (hc : ∃ s, Refines ex'.cache s) : Stocked ex' rows :=
  ⟨hc, fun name t hlook => h.stored name t (ht ▸ hlook),
    fun name hlook => h.absent name (ht ▸ hlook)⟩

theorem Stocked.congr {rows' : Bytes → List Record} (h : Stocked ex rows)
    (hrows : ∀ name, rows' name = rows name) : Stocked ex rows' :=
  funext hrows ▸ h

theorem buildSchema_length {s s' : Schema} {cols : List AstColumnDef}
    (h : Executor.buildSchema s cols = .ok s') :
    s'.columns.length = s.columns.length + cols.length := by
  induction cols generalizing s with
  | nil =>
      obtain rfl := Except.ok.inj h
      rfl
  | cons col cols ih =>
      rw [Executor.buildSchema] at h
      split at h
      · exact absurd h (by simp)
      · have hlen := ih h
        simp only [Schema.addColumn, List.length_append, List.length_singleton] at hlen
        rw [hlen, List.length_cons]
        omega

variable [FloatLib]

theorem born_eq_nil (h : ∀ stmt, parseSql sql ≠ .ok (.ok (.insert stmt))) :
    born ex now sql = [] := by
  rw [born]
  split
  · next stmt hparse => exact absurd hparse (h stmt)
  · rfl

/-- A statement that returns adds the births to the records. -/
theorem Stocked.executeSql (h : Stocked ex rows) (hfits : FitsSql sql)
    (hrun : ex.executeSql now sql = .ok (ex', r)) :
    Stocked ex' fun name => rows name ++ birthRecords (born ex now sql) name := by
  have hsame : born ex now sql = [] →
      ∀ name, rows name ++ birthRecords (born ex now sql) name = rows name := by
    intro hborn name
    rw [hborn]
    exact List.append_nil _
  obtain ⟨res, hparse, hrun⟩ := Outcome.bind_eq_ok.mp hrun
  cases res with
  | error e =>
      obtain ⟨rfl, -⟩ := Prod.mk.inj (Except.ok.inj hrun)
      exact h.congr (hsame (born_eq_nil (by simp [hparse])))
  | ok stmt =>
      cases stmt with
      | createTable stmt =>
          have hborn : born ex now sql = [] := born_eq_nil (by simp [hparse])
          rcases execCreateTable_cases hrun with
            ⟨-, rfl⟩ | ⟨-, hnone, schema, t, hschema, hnew, rfl⟩
          · exact h.congr (hsame hborn)
          · have hpk : schema.columns ≠ [] := by
              obtain ⟨pk, -, hk⟩ := Outcome.bind_eq_ok.mp hnew
              have hs : t.schema = schema := by rw [← Except.ok.inj hk]
              exact hs ▸ (settled_new (buildSchema_built hschema) hnew).pk
            obtain ⟨t', hnew', hrep, -, -, httl⟩ := rep_new (Bytes.toUpper stmt.tableName)
              ⟨buildSchema_built hschema, hpk, hfits stmt schema hparse hschema⟩ defaultTtlSeconds
            obtain rfl := Except.ok.inj (hnew.symm.trans hnew')
            refine (h.insertTable _ h.cache hrep httl).congr fun name => ?_
            rw [hsame hborn]
            by_cases hn : name = Bytes.toUpper stmt.tableName
            · rw [hn, Function.update_self, h.absent _ hnone]
            · rw [Function.update_of_ne hn]
      | select stmt =>
          have hborn : born ex now sql = [] := born_eq_nil (by simp [hparse])
          exact (h.of_tables (execSelect_tables hrun) (h.consistent.execSelect hrun).cache).congr
            (hsame hborn)
      | insert stmt =>
          have hcache := (h.consistent.execInsert hrun).cache
          rcases execInsert_cases hrun with
            ⟨hnone, -, rfl⟩ | ⟨t, t', n, e, hlook, htuples, htables, -⟩
          · refine h.congr (hsame ?_)
            simp only [born, hparse, hnone]
          · obtain ⟨hrep, httl⟩ := h.stored _ t hlook
            obtain ⟨t₂, n₂, e₂, hrun₂, hrep', -, httl'⟩ :=
              hrep.insertTuples_taken now stmt.batchValues 0
            obtain ⟨rfl, -⟩ := Prod.mk.inj (Except.ok.inj (htuples.symm.trans hrun₂))
            have hput := h.insertTable (Bytes.toUpper stmt.tableName) hcache hrep'
              (httl'.trans httl)
            refine (hput.of_tables htables hcache).congr fun name => ?_
            simp only [born, hparse, hlook, birthRecords_map, httl]
            by_cases hn : name = Bytes.toUpper stmt.tableName
            · rw [hn, Function.update_self, if_pos rfl]
            · rw [Function.update_of_ne hn, if_neg hn, List.append_nil]

/-- A tame text runs through if the parser does not throw. -/
theorem Stocked.executeSql_parsed (h : Stocked ex rows) (hsql : Tame sql)
    {res : Except Bytes Statement} (hparse : parseSql sql = .ok res) (now : Int64) :
    ∃ ex' r, ex.executeSql now sql = .ok (ex', r) := by
  rw [Executor.executeSql, hparse, Outcome.bind_ok]
  cases res with
  | error e => exact ⟨ex, _, rfl⟩
  | ok stmt =>
      cases stmt with
      | createTable stmt =>
          simp only [Executor.execute, Executor.execCreateTable]
          split
          · exact ⟨ex, _, rfl⟩
          · split
            · exact ⟨ex, _, rfl⟩
            · next schema hschema =>
                have hpk : schema.columns ≠ [] := by
                  have hlen := buildSchema_length hschema
                  have hpos := List.length_pos_iff.mpr (hsql.columns stmt hparse)
                  exact List.length_pos_iff.mp (by omega)
                obtain ⟨t, hnew, -⟩ := rep_new (Bytes.toUpper stmt.tableName)
                  ⟨buildSchema_built hschema, hpk, hsql.fits stmt schema hparse hschema⟩
                  defaultTtlSeconds
                rw [hnew, Outcome.bind_ok]
                exact ⟨_, _, rfl⟩
      | insert stmt =>
          obtain ⟨s, hs⟩ := h.cache
          simp only [Executor.execute, Executor.execInsert]
          split
          · exact ⟨ex, _, rfl⟩
          · next t hlook =>
              obtain ⟨t', n, e, hrun, -⟩ :=
                (h.stored _ t hlook).1.insertTuples_taken now stmt.batchValues 0
              rw [hrun, Outcome.bind_ok]
              cases e with
              | some e => exact ⟨_, _, rfl⟩
              | none =>
                  obtain ⟨cache, hinv, -⟩ :=
                    invalidateTable_refines hs (Bytes.toUpper stmt.tableName)
                  exact ⟨_, _, by simp only [hinv, Outcome.bind_ok]; rfl⟩
      | select stmt =>
          obtain ⟨cache, cached, hlook, s, hs⟩ := h.consistent.lookupCache sql
          simp only [Executor.execute, Executor.execSelect, hlook, Outcome.bind_ok]
          cases cached with
          | some res => exact ⟨_, _, rfl⟩
          | none =>
              obtain ⟨res, hrun, -⟩ := selectRows_returns
                (fun name t ht => ⟨(h.stored name t ht).1, (h.stored name t ht).1.indexed⟩)
                now stmt
              simp only [hrun, Outcome.bind_ok]
              cases res with
              | error e => exact ⟨_, _, rfl⟩
              | ok res =>
                  obtain ⟨cache', hfill, -⟩ := fillCache_refines hs sql res
                  exact ⟨_, _, by simp only [hfill, Outcome.bind_ok]; rfl⟩

/-- A harmless text runs through. -/
theorem Stocked.executeSql_returns (h : Stocked ex rows) (hsql : Harmless sql) (now : Int64) :
    ∃ ex' r, ex.executeSql now sql = .ok (ex', r) := by
  obtain ⟨res, hparse⟩ := parseSql_returns hsql
  exact h.executeSql_parsed hsql.tame hparse now

end Executors

end FlexQL.Proofs
