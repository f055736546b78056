import FlexQL.Proofs.Declared

/-!
# The length of a `VARCHAR`

The digits of the length go through `std::stoi`, a cast to 16 bits and a rule
that takes 0 for the default. What comes out is the number that was written
only from 1 to 65535.
-/

namespace FlexQL.Proofs

open Lib FlexQL.Ref FlexQL.Spec FlexQL.Spec.Grammar

/-! ## The number -/

/-- The length the parser makes of a literal. -/
theorem toUInt16_ofInt (n : Int) :
    (((Int32.ofInt n).toUInt32.toUInt16.toNat : Nat) : Int) = n % 65536 := by
  have hbits : (Int32.ofInt n).toUInt32.toNat = (n % 2 ^ 32).toNat := BitVec.toNat_ofInt n
  rw [UInt32.toNat_toUInt16, hbits]
  omega

/-- It is the literal's value just from 1 to 65535. -/
theorem length_eq_iff {n : Int} {len : UInt16} (h : ((len.toNat : Nat) : Int) = n % 65536) :
    (((if 0 < len then len else defaultVarcharMax).toNat : Nat) : Int) = n ↔
      1 ≤ n ∧ n ≤ 65535 := by
  have hlt := len.toNat_lt
  split
  · next hpos =>
      have hpos' : 0 < len.toNat := UInt16.lt_iff_toNat_lt.mp hpos
      omega
  · next hzero =>
      have hzero' : ¬ 0 < len.toNat := fun hc => hzero (UInt16.lt_iff_toNat_lt.mpr hc)
      have hdefault : defaultVarcharMax.toNat = 255 := rfl
      omega

theorem stoi_eq {w : Bytes} {n : Int} (h : Bytes.leadingInt w = some n) :
    stoi w = if -2 ^ 31 ≤ n ∧ n < 2 ^ 31 then some (Int32.ofInt n) else none := by
  rw [stoi, h]

/-! ## The text -/

section Texts

variable {name literal sql table : Bytes} {before after : List AstColumnDef}
  {ts rest : List Token} {n : Int32}

/-- The column as it is parsed. -/
def varcharColumn (name : Bytes) (n : Int32) : AstColumnDef :=
  ⟨name, Bytes.lit "VARCHAR", n.toUInt32.toUInt16⟩

theorem colDefs_of_varcharList (h : VarcharList name literal after rest ts before)
    (hn : stoi literal = some n) :
    ColDefs .documented ts (before ++ varcharColumn name n :: after) rest := by
  induction h with
  | @here ts len hid hname hk hparen hlen hint hlit hend hcont =>
      have hcol : ColDef ts (varcharColumn name n) len.tail.tail :=
        ⟨hid, hname.symm, .varcharOf hk hparen hlen hint (hlit ▸ hn) hend⟩
      rcases hcont with ⟨hp, rfl, rfl⟩ | ⟨hc, hrest⟩
      · exact .last hcol hp
      · exact .more hcol hc hrest
  | there hc hk _ ih => exact .more hc hk ih

/-- A length that is not an `int` throws, wherever it stands. -/
theorem columnDefs_throws (h : VarcharList name literal after rest ts before)
    (hn : stoi literal = none) : Parser.columnDefs ts = .error .thrown := by
  induction h with
  | @here ts len hid hname hk hparen hlen hint hlit hend hcont =>
      subst hlen hlit
      have htype : Parser.columnType (text ts) ts.tail =
          .ok (Bytes.lit "VARCHAR", ts.tail.tail) := by
        rw [Parser.columnType, show (Parser.current ts.tail).type = .kwVarchar from hk]
      have hcol : Parser.columnDef ts = .error .thrown := by
        rw [Parser.columnDef, identifier_iff.mpr ⟨hid, rfl, rfl⟩, Outcome.bind_ok]
        dsimp only
        rw [htype, Outcome.bind_ok]
        dsimp only
        rw [Parser.varcharLength, if_pos ⟨rfl, hparen⟩, if_neg (not_not.mpr hint),
          show stoi (Parser.current ts.tail.tail.tail).value = none from hn]
        rfl
      have hfirst : ¬ (kind ts = .rparen ∨ kind ts = .endOfInput) := by
        rw [hid]
        decide
      rw [Parser.columnDefs, if_neg hfirst]
      split
      · next e he => rw [Except.error.inj (he.symm.trans hcol)]
      · next c ts' hc => exact absurd (hc.symm.trans hcol) (by simp)
  | there hc hk _ ih =>
      rw [columnDefs_of_columnDef (columnDef_iff.mpr hc), if_pos hk, ih]
      rfl

theorem parseSql_varchar (h : DeclaresVarchar sql table before name literal after)
    (hn : stoi literal = some n) : parseSql sql =
      .ok (.ok (.createTable ⟨table, before ++ varcharColumn name n :: after⟩)) := by
  obtain ⟨rest, hlist⟩ := h.list
  have hcols := colDefs_lax (colDefs_of_varcharList hlist hn)
  have hreading : Reading .lax (Lexer.tokenize sql).1
      (.createTable ⟨table, before ++ varcharColumn name n :: after⟩)
      (Parser.skip .semicolon rest) := by
    rw [← h.named]
    exact ⟨rest, .create h.create h.kwTable rfl h.tableName h.opens hcols, rfl, rfl⟩
  have hrun := parse_of_reading hreading trivial
  rw [parseSql]
  simp only [h.lexes, hrun, List.isEmpty_nil, Bool.not_true, Bool.false_eq_true, if_false]

theorem parseSql_varchar_throws (h : DeclaresVarchar sql table before name literal after)
    (hn : stoi literal = none) : parseSql sql = .error .thrown := by
  obtain ⟨rest, hlist⟩ := h.list
  have hrun : Parser.parse (Lexer.tokenize sql).1 = .error .thrown := by
    rw [Parser.parse, show (Parser.current (Lexer.tokenize sql).1).type = .kwCreate from h.create]
    simp only [Parser.parseCreateTable, expect_iff.mpr ⟨h.kwTable, rfl⟩,
      identifier_iff.mpr ⟨h.tableName, rfl, rfl⟩, expect_iff.mpr ⟨h.opens, rfl⟩,
      columnDefs_throws hlist hn, Outcome.bind_ok]
    rfl
  rw [parseSql]
  simp only [h.lexes, hrun, List.isEmpty_nil, Bool.not_true, Bool.false_eq_true, if_false]

end Texts

/-! ## The column -/

section Columns

variable {cols : List AstColumnDef} {defs : List ColumnDef}

theorem declared_getElem? (h : declared cols = some defs) (i : Nat) :
    defs[i]? = cols[i]?.bind declaredColumn := by
  induction cols generalizing defs i with
  | nil =>
      obtain rfl := Option.some.inj h
      rfl
  | cons c cols ih =>
      simp only [declared, List.mapM_cons, Option.bind_eq_bind, Option.bind_eq_some_iff,
        Option.pure_def, Option.some.injEq] at h
      obtain ⟨d, hd, rest, hrest, rfl⟩ := h
      cases i with
      | zero => exact hd.symm
      | succ i => exact ih hrest i

theorem declaredColumn_of_colDef {ts rest : List Token} {c : AstColumnDef}
    (h : ColDef ts c rest) : ∃ d, declaredColumn c = some d := by
  have hknown : ∃ type, Executor.columnDataType c.typeName = some type := by
    have htype := h.type
    generalize c.typeName = typeName, c.varcharLen = len at htype
    cases htype <;> exact Option.isSome_iff_exists.mp (by decide)
  obtain ⟨type, htype⟩ := hknown
  exact ⟨_, by rw [declaredColumn, htype]; rfl⟩

/-- The types of the grammar are known. -/
theorem declared_of_colDefs {g : Strength} {ts rest : List Token} (h : ColDefs g ts cols rest) :
    ∃ defs, declared cols = some defs := by
  induction h with
  | none => exact ⟨[], rfl⟩
  | last hc _ =>
      obtain ⟨d, hd⟩ := declaredColumn_of_colDef hc
      exact ⟨[d], by simp [declared, hd]⟩
  | more hc _ _ ih =>
      obtain ⟨d, hd⟩ := declaredColumn_of_colDef hc
      obtain ⟨defs, hdefs⟩ := ih
      rw [declared] at hdefs
      exact ⟨d :: defs, by simp [declared, hd, hdefs]⟩

/-- One value of a row is replaced. -/
theorem forall₂_set_iff {α β : Type} {R : α → β → Prop} {as : List α} {bs : List β}
    (h : List.Forall₂ R as bs) {i : Nat} {a : α} (ha : as[i]? = some a) (b : β) :
    List.Forall₂ R as (bs.set i b) ↔ R a b := by
  induction h generalizing i with
  | nil => exact absurd ha (by simp)
  | cons hab hrest ih =>
      cases i with
      | zero =>
          obtain rfl := Option.some.inj ha
          rw [List.set_cons_zero, List.forall₂_cons, and_iff_left hrest]
      | succ i => rw [List.set_cons_succ, List.forall₂_cons, and_iff_right hab, ih ha]

theorem enforces_maxLen {s : Schema} {i : Nat} {c : ColumnDef} (hc : s.columns[i]? = some c)
    (htype : c.type = .varchar) : Enforces s i c.maxLen.toNat := by
  intro row hrow str
  rw [validateRow_eq_none] at hrow ⊢
  rw [forall₂_set_iff hrow hc]
  constructor
  · intro h
    exact Int.ofNat_le.mpr (h.short htype)
  · intro h
    exact ⟨htype.symm, fun _ => Int.ofNat_le.mp h⟩

end Columns

/-! ## The statement -/

section Statement

variable [FloatLib] {ex : Executor} {sql table name literal : Bytes}
  {before after : List AstColumnDef} {n : Int}

/-- What the statement does with a length that is an `int`. -/
theorem executeSql_varchar (h : DeclaresVarchar sql table before name literal after)
    (hn : Bytes.leadingInt literal = some n) (hrange : -2 ^ 31 ≤ n ∧ n < 2 ^ 31)
    (hfree : ex.tables.lookup (Bytes.toUpper table) = none) (now : Int64) :
    ∃ ex' r t c, ex.executeSql now sql = .ok (ex', r) ∧ r.success = true ∧
      ex'.tables.lookup (Bytes.toUpper table) = some t ∧
      t.schema.columns[before.length]? = some c ∧ c.name = Bytes.toUpper name ∧
      c.type = .varchar ∧ ((c.maxLen.toNat : Int) = n ↔ 1 ≤ n ∧ n ≤ 65535) := by
  have hstoi : stoi literal = some (Int32.ofInt n) := by rw [stoi_eq hn, if_pos hrange]
  have hparse := parseSql_varchar h hstoi
  obtain ⟨rest, hlist⟩ := h.list
  obtain ⟨defs, hdefs⟩ := declared_of_colDefs (colDefs_of_varcharList hlist hstoi)
  have hcol : defs[before.length]? = declaredColumn (varcharColumn name (Int32.ofInt n)) := by
    rw [declared_getElem? hdefs, List.getElem?_append_right (Nat.le_refl _), Nat.sub_self]
    rfl
  have hpk : defs ≠ [] := by
    rintro rfl
    exact absurd hcol nofun
  obtain ⟨ex', r, hrun, hok⟩ := @execCreateTable_succeeds ex
    ⟨table, before ++ varcharColumn name (Int32.ofInt n) :: after⟩ defs hfree hdefs hpk
  obtain ⟨t, defs', hlook, hdefs', -, hcols, -⟩ := execCreateTable_declared hrun hok
  obtain rfl := Option.some.inj (hdefs.symm.trans hdefs')
  have hexec : ex.executeSql now sql = .ok (ex', r) := by
    rw [Executor.executeSql, hparse]
    exact hrun
  refine ⟨ex', r, t, _, hexec, hok, hlook, by rw [hcols]; exact hcol, rfl, rfl, ?_⟩
  exact length_eq_iff (toUInt16_ofInt n)

/-- The column has the length that was written, or the statement is rejected,
just when the length is from 1 to 65535, or is an `int` and the table exists
already. -/
theorem varchar_length_iff (h : DeclaresVarchar sql table before name literal after)
    (hn : Bytes.leadingInt literal = some n) (now : Int64) :
    (∃ ex' r, ex.executeSql now sql = .ok (ex', r) ∧ (r.success = false ∨
      ∃ t c, ex'.tables.lookup (Bytes.toUpper table) = some t ∧
        t.schema.columns[before.length]? = some c ∧ c.name = Bytes.toUpper name ∧
        c.type = .varchar ∧ (c.maxLen.toNat : Int) = n ∧ Enforces t.schema before.length n)) ↔
      (1 ≤ n ∧ n ≤ 65535) ∨
        ((ex.tables.lookup (Bytes.toUpper table)).isSome ∧ -2 ^ 31 ≤ n ∧ n < 2 ^ 31) := by
  by_cases hrange : -2 ^ 31 ≤ n ∧ n < 2 ^ 31
  · cases hlook : ex.tables.lookup (Bytes.toUpper table) with
    | some t =>
        have hparse := parseSql_varchar h (by rw [stoi_eq hn, if_pos hrange])
        have hrun : ex.executeSql now sql =
            .ok (ex, .failure (Bytes.lit "Table already exists: " ++ Bytes.toUpper table)) := by
          rw [Executor.executeSql, hparse]
          exact if_pos (by rw [hlook]; rfl)
        exact iff_of_true ⟨ex, _, hrun, .inl rfl⟩ (.inr ⟨rfl, hrange⟩)
    | none =>
        obtain ⟨ex', r, t, c, hrun, hok, hlook', hcol, hname, htype, hlen⟩ :=
          executeSql_varchar h hn hrange hlook now
        constructor
        · rintro ⟨ex₁, r₁, hrun₁, hres⟩
          obtain ⟨rfl, rfl⟩ := Prod.mk.inj (Except.ok.inj (hrun.symm.trans hrun₁))
          rcases hres with hfail | ⟨t', c', ht', hc', -, -, hmax, -⟩
          · exact absurd (hok.symm.trans hfail) (by decide)
          · obtain rfl := Option.some.inj (hlook'.symm.trans ht')
            obtain rfl := Option.some.inj (hcol.symm.trans hc')
            exact .inl (hlen.mp hmax)
        · rintro (hsmall | ⟨hsome, -⟩)
          · have hmax := hlen.mpr hsmall
            refine ⟨ex', r, hrun, .inr ⟨t, c, hlook', hcol, hname, htype, hmax, ?_⟩⟩
            rw [← hmax]
            exact enforces_maxLen hcol htype
          · exact absurd hsome (by simp)
  · have hthrow := parseSql_varchar_throws h (by rw [stoi_eq hn, if_neg hrange])
    refine iff_of_false ?_ ?_
    · rintro ⟨ex', r, hrun, -⟩
      rw [Executor.executeSql, hthrow] at hrun
      exact absurd hrun (by simp)
    · rintro (hsmall | ⟨-, hint⟩)
      · omega
      · exact hrange hint

end Statement

section Runs

attribute [local instance] noDoubles

def lengthText (w : String) : Bytes :=
  Bytes.lit "CREATE TABLE t (c VARCHAR(" ++ Bytes.lit w ++ Bytes.lit "))"

/-- The tokens of `lengthText`; the literal ends before column `col`. -/
def lengthTokens (w : String) (col : Nat) : List Token :=
  [⟨.kwCreate, Bytes.lit "CREATE", 1, 1⟩, ⟨.kwTable, Bytes.lit "TABLE", 1, 8⟩,
    ⟨.identifier, Bytes.lit "t", 1, 14⟩, ⟨.lparen, Bytes.lit "(", 1, 16⟩,
    ⟨.identifier, Bytes.lit "c", 1, 17⟩, ⟨.kwVarchar, Bytes.lit "VARCHAR", 1, 19⟩,
    ⟨.lparen, Bytes.lit "(", 1, 26⟩, ⟨.intLiteral, Bytes.lit w, 1, 27⟩,
    ⟨.rparen, Bytes.lit ")", 1, col⟩, ⟨.rparen, Bytes.lit ")", 1, col + 1⟩,
    ⟨.endOfInput, [], 1, col + 2⟩]

theorem declaresVarchar_lengthText {w : String} {col : Nat}
    (h : Lexer.tokenize (lengthText w) = (lengthTokens w col, [])) :
    DeclaresVarchar (lengthText w) (Bytes.lit "t") [] (Bytes.lit "c") (Bytes.lit w) [] := by
  have hlist : VarcharList (Bytes.lit "c") (Bytes.lit w) [] ((lengthTokens w col).drop 10)
      ((lengthTokens w col).drop 4) [] :=
    .here rfl rfl rfl rfl rfl rfl rfl rfl (.inl ⟨rfl, rfl, rfl⟩)
  constructor <;> rw [h]
  exacts [rfl, rfl, rfl, rfl, rfl, ⟨_, hlist⟩]

theorem varchar_length_iff_eight : ∃ ex' r, Executor.new.executeSql 0 (lengthText "8") =
    .ok (ex', r) ∧ (r.success = false ∨
      ∃ t c, ex'.tables.lookup (Bytes.lit "T") = some t ∧ t.schema.columns[0]? = some c ∧
        c.name = Bytes.lit "C" ∧ c.type = .varchar ∧ (c.maxLen.toNat : Int) = 8 ∧
        Enforces t.schema 0 8) := by
  have hlex : Lexer.tokenize (lengthText "8") = (lengthTokens "8" 28, []) := by decide +kernel
  exact (varchar_length_iff (declaresVarchar_lengthText hlex) (by decide) 0).mpr
    (.inl ⟨by decide, by decide⟩)

/-- 65537 is cut to 1, and a string of two bytes is too long. -/
theorem varchar_length_cut : ∃ ex' r t,
    DeclaresVarchar (lengthText "65537") (Bytes.lit "t") [] (Bytes.lit "c")
      (Bytes.lit "65537") [] ∧
    Executor.new.executeSql 0 (lengthText "65537") = .ok (ex', r) ∧ r.success = true ∧
    ex'.tables.lookup (Bytes.lit "T") = some t ∧
    t.schema.columns = [⟨Bytes.lit "C", .varchar, 1⟩] ∧
    t.schema.validateRow [.varchar (Bytes.lit "ab")] =
      some (Bytes.lit "VARCHAR overflow for column 'C': max 1, got 2") := by
  have hrun : (do
      let created ← Executor.new.executeSql 0 (lengthText "65537")
      let t ← Executor.cell (created.1.tables.lookup (Bytes.lit "T")).toList 0
      .ok (Lexer.tokenize (lengthText "65537"), created.2.success, t.schema.columns,
        t.schema.validateRow [.varchar (Bytes.lit "ab")]) : Outcome _) =
      .ok ((lengthTokens "65537" 32, []), true, [⟨Bytes.lit "C", .varchar, 1⟩],
        some (Bytes.lit "VARCHAR overflow for column 'C': max 1, got 2")) := by
    decide +kernel
  obtain ⟨⟨ex', r⟩, hexec, hrun⟩ := Outcome.bind_eq_ok.mp hrun
  obtain ⟨t, ht, hrun⟩ := Outcome.bind_eq_ok.mp hrun
  simp only [Except.ok.injEq, Prod.mk.injEq] at hrun
  obtain ⟨hlex, hok, hcols, hrow⟩ := hrun
  exact ⟨ex', r, t, declaresVarchar_lengthText hlex, hexec, hok, cell_toList ht, hcols, hrow⟩

end Runs

end FlexQL.Proofs
