import FlexQL.Proofs.Transparency
import FlexQL.Proofs.UpperCase

/-!
# The case of keywords and names does not show

Texts that are variants of each other are read as statements that differ in
the case of their names only, and they have one entry in the cache. The
executor takes names in upper case, so both texts lead to the same state: two
runs that differ in the case of keywords and names go through the same states
and give the same answers.
-/

namespace FlexQL.Proofs

open Lib FlexQL.Ref FlexQL.Spec

/-! ## What is read -/

theorem upperSelect_where {w w' : Option WhereClause}
    (hupper : w.map upperWhere = w'.map upperWhere)
    (hlit : (w.map (·.literal)).toList = (w'.map (·.literal)).toList) :
    (w.map fun w => { w with column := upperRef w.column }) =
      w'.map fun w => { w with column := upperRef w.column } := by
  cases w with
  | none =>
      cases w' with
      | none => rfl
      | some w' => exact absurd hupper nofun
  | some w =>
      cases w' with
      | none => exact absurd hupper nofun
      | some w' =>
          obtain ⟨hcol, hop, -⟩ := WhereClause.mk.inj (Option.some.inj hupper)
          have hlit : w.literal = w'.literal := (List.cons.inj hlit).1
          simp only [Option.map_some, hcol, hop, hlit]

theorem upperSelect_eq (s : SelectStmt) : upperSelect s =
    ⟨Bytes.toUpper s.tableName, s.columns.map upperRef, s.selectAll,
      s.whereClause.map fun w => { w with column := upperRef w.column }, s.join.map upperJoin⟩ :=
  rfl

/-- What is the same in upper case, with the same literals, differs in names
only. -/
theorem upperNames_eq {stmt stmt' : Statement}
    (hupper : upperStatement stmt = upperStatement stmt') (hlit : literals stmt = literals stmt') :
    upperNames stmt = upperNames stmt' := by
  cases stmt <;> cases stmt'
  case createTable.createTable s s' => exact hupper
  case insert.insert s s' =>
      have hname : Bytes.toUpper s.tableName = Bytes.toUpper s'.tableName :=
        congrArg InsertStmt.tableName (Statement.insert.inj hupper)
      have hvalues : s.batchValues = s'.batchValues := hlit
      simp only [upperNames, hname, hvalues]
  case select.select s s' =>
      obtain ⟨hname, hcols, hall, hwhere, hjoin⟩ := SelectStmt.mk.inj
        (Statement.select.inj hupper)
      have hwhere := upperSelect_where hwhere (List.cons.inj hlit).1
      simp only [upperNames, upperSelect_eq, hname, hcols, hall, hwhere, hjoin]
  all_goals exact absurd hupper nofun

/-- Two answers of the parser: statements that differ in the case of names,
or two errors. -/
def ReadAlike : Except Bytes Statement → Except Bytes Statement → Prop
  | .ok stmt, .ok stmt' => upperNames stmt = upperNames stmt'
  | .error _, .error _ => True
  | _, _ => False

theorem parseSql_variant {a b : Bytes} (h : CaseVariant a b) :
    Outcome.Matches ReadAlike (parseSql a) (parseSql b) := by
  have htokens := tokenize_upper a
  rw [h.letters, tokenize_upper b] at htokens
  obtain ⟨hmap, herror⟩ := Prod.mk.inj htokens
  have hparse := parse_upper (Lexer.tokenize b).1
  rw [hmap] at hparse
  have halike := (parse_upper (Lexer.tokenize a).1).join hparse
  have hlit := h.literals
  simp only [parseSql, herror] at hlit ⊢
  split
  · trivial
  · next hok =>
      rw [if_neg hok, if_neg hok] at hlit
      generalize Parser.parse (Lexer.tokenize a).1 = x at halike hlit ⊢
      generalize Parser.parse (Lexer.tokenize b).1 = y at halike hlit ⊢
      rcases x with (text | _) | ⟨stmt, rest⟩ <;> rcases y with (text' | _) | ⟨stmt', rest'⟩
      all_goals first
        | exact halike.elim
        | trivial
        | skip
      obtain ⟨⟨_, _⟩, hx, hy⟩ := halike
      have hupper := (Prod.mk.inj hx).1.symm.trans (Prod.mk.inj hy).1
      exact upperNames_eq hupper (hlit stmt stmt' rfl rfl)

/-! ## What is done -/

theorem normalizeStep_upper (s : Bytes × Bool) (c : UInt8) :
    LRUCache.normalizeStep s (Bytes.upperChar c) = LRUCache.normalizeStep s c := by
  rw [LRUCache.normalizeStep, LRUCache.normalizeStep, Bytes.isSpace_upperChar,
    Bytes.upperChar_idem]

/-- Variants have one entry in the cache. -/
theorem normalize_upper (sql : Bytes) :
    LRUCache.normalize (Bytes.toUpper sql) = LRUCache.normalize sql := by
  rw [LRUCache.normalize, LRUCache.normalize, Bytes.toUpper, List.foldl_map]
  simp only [normalizeStep_upper]

theorem normalize_variant {a b : Bytes} (h : CaseVariant a b) :
    LRUCache.normalize a = LRUCache.normalize b := by
  rw [← normalize_upper a, h.letters, normalize_upper]

theorem isEmpty_variant {a b : Bytes} (h : CaseVariant a b) : a.isEmpty = b.isEmpty := by
  have hlen := congrArg List.length h.letters
  rw [Bytes.toUpper_length, Bytes.toUpper_length] at hlen
  cases a <;> cases b <;> first | rfl | exact absurd hlen nofun

theorem buildSchema_upper (s : Schema) (cols : List AstColumnDef) :
    Executor.buildSchema s (cols.map upperColumn) = Executor.buildSchema s cols := by
  induction cols generalizing s with
  | nil => rfl
  | cons c cs ih =>
      simp only [List.map_cons, Executor.buildSchema, upperColumn, Bytes.toUpper_idem]
      split
      · rfl
      · exact ih _

section Executor

variable [FloatLib] {a b : Bytes} {ex : Executor} {now : Int64}

/-- The executor takes names in upper case. -/
theorem execute_upperNames (stmt : Statement) (sql : Bytes) :
    ex.execute now (upperNames stmt) sql = ex.execute now stmt sql := by
  cases stmt with
  | createTable stmt =>
      simp only [upperNames, Executor.execute, Executor.execCreateTable, buildSchema_upper]
      rw [Bytes.toUpper_idem]
  | insert stmt =>
      simp only [upperNames, Executor.execute, Executor.execInsert]
      rw [Bytes.toUpper_idem]
  | select stmt =>
      simp only [upperNames, Executor.execute, Executor.execSelect, selectRows_upper]

/-- The executor takes the text of a query for its key in the cache only. -/
theorem execute_variant (h : CaseVariant a b) (stmt : Statement) :
    ex.execute now stmt a = ex.execute now stmt b := by
  have hlookup : Executor.lookupCache ex.cache a = Executor.lookupCache ex.cache b := by
    rw [Executor.lookupCache, Executor.lookupCache, isEmpty_variant h, LRUCache.get, LRUCache.get,
      normalize_variant h]
  have hfill : ∀ cache r, Executor.fillCache cache a r = Executor.fillCache cache b r := by
    intro cache r
    rw [Executor.fillCache, Executor.fillCache, isEmpty_variant h, LRUCache.put, LRUCache.put,
      normalize_variant h]
  cases stmt with
  | createTable stmt => rfl
  | insert stmt => rfl
  | select stmt => simp only [Executor.execute, Executor.execSelect, hlookup, hfill]

/-- Variants lead to the same state. -/
theorem executeSql_variant (h : CaseVariant a b) : Outcome.Matches
    (fun x y => x.1 = y.1 ∧ SameReply x.2 y.2) (ex.executeSql now a) (ex.executeSql now b) := by
  refine (parseSql_variant h).bind fun x y hxy => ?_
  cases x with
  | error e =>
      cases y with
      | error e' => exact ⟨rfl, rfl, rfl, rfl, rfl⟩
      | ok stmt' => exact hxy.elim
  | ok stmt =>
      cases y with
      | error e' => exact hxy.elim
      | ok stmt' =>
          have hnames : upperNames stmt = upperNames stmt' := hxy
          have hsame : ex.execute now stmt a = ex.execute now stmt' b := by
            rw [execute_variant h, ← execute_upperNames stmt, hnames, execute_upperNames]
          dsimp only
          rw [hsame]
          cases ex.execute now stmt' b with
          | error e => exact rfl
          | ok r => exact ⟨rfl, rfl, rfl, rfl, rfl⟩

/-! ## Runs -/

/-- Two runs whose texts are variants of each other, with the same clock. -/
theorem runAll_variants {calls calls' : List (Int64 × Bytes)}
    (h : List.Forall₂ (fun c c' => c.1 = c'.1 ∧ CaseVariant c.2 c'.2) calls calls') :
    Outcome.Matches (fun x y => x.1 = y.1 ∧ List.Forall₂ SameReply x.2 y.2)
      (Actions.runAll (fun ex c => Executor.executeSql ex c.1 c.2) Executor.new calls)
      (Actions.runAll (fun ex c => Executor.executeSql ex c.1 c.2) Executor.new calls') := by
  refine Actions.runAll_forall₂ ?_ rfl h
  rintro ex _ ⟨now, a⟩ ⟨_, b⟩ rfl ⟨rfl, hab⟩
  exact executeSql_variant hab

end Executor

theorem caseVariant_of_literals {a b : Bytes} (hletters : Bytes.toUpper a = Bytes.toUpper b)
    (hlit : (parseSql a).map (Except.map literals) = (parseSql b).map (Except.map literals)) :
    CaseVariant a b := by
  refine ⟨hletters, fun stmt stmt' ha hb => ?_⟩
  rw [ha, hb] at hlit
  exact Except.ok.inj (Except.ok.inj hlit)

section Spellings

attribute [local instance] noDoubles

/-- A name goes in and is asked for twice. -/
def shouted : List (Int64 × Bytes) :=
  [(0, Bytes.lit "CREATE TABLE T (A VARCHAR)"), (0, Bytes.lit "INSERT INTO T VALUES ('Ann')"),
    (1, Bytes.lit "SELECT T.A FROM T WHERE A = 'Ann'"),
    (2, Bytes.lit "SELECT T.A FROM T WHERE A = 'Ann'")]

/-- The same in other spellings. -/
def whispered : List (Int64 × Bytes) :=
  [(0, Bytes.lit "create table t (a varchar)"), (0, Bytes.lit "insert into T values ('Ann')"),
    (1, Bytes.lit "select t.a from t where A = 'Ann'"),
    (2, Bytes.lit "Select T.a From t Where a = 'Ann'")]

theorem runAll_variants_people : ∃ x y,
    Actions.runAll (fun ex c => Executor.executeSql ex c.1 c.2) Executor.new shouted = .ok x ∧
    Actions.runAll (fun ex c => Executor.executeSql ex c.1 c.2) Executor.new whispered = .ok y ∧
    x.1 = y.1 ∧ List.Forall₂ SameReply x.2 y.2 ∧ x.1.cache.hits = 1 ∧ x.2.map (·.rows) =
      [[], [], [[.varchar (Bytes.lit "Ann")]], [[.varchar (Bytes.lit "Ann")]]] := by
  have hvariants : List.Forall₂ (fun c c' : Int64 × Bytes => c.1 = c'.1 ∧ CaseVariant c.2 c'.2)
      shouted whispered := by
    refine .cons ⟨rfl, ?_⟩ (.cons ⟨rfl, ?_⟩ (.cons ⟨rfl, ?_⟩ (.cons ⟨rfl, ?_⟩ .nil)))
    all_goals exact caseVariant_of_literals (by decide +kernel) (by decide +kernel)
  have hrun : (Actions.runAll (fun ex c => Executor.executeSql ex c.1 c.2) Executor.new
      shouted).map (fun x => (x.1.cache.hits, x.2.map (·.rows))) =
      .ok (1, [[], [], [[.varchar (Bytes.lit "Ann")]], [[.varchar (Bytes.lit "Ann")]]]) := by
    decide +kernel
  obtain ⟨x, hx, hvalues⟩ := Outcome.map_eq_ok.mp hrun
  obtain ⟨y, hy, hstate, hreplies⟩ := (runAll_variants hvariants).ok_left hx
  obtain ⟨hhits, hrows⟩ := Prod.mk.inj hvalues
  exact ⟨x, y, hx, hy, hstate, hreplies, hhits, hrows⟩

end Spellings

end FlexQL.Proofs
