import FlexQL.Proofs.Grammar
import FlexQL.Proofs.JoinQueries

/-!
# The operators of a join

The documented grammar has six operators between the columns of an `ON`, and
the executor has a loop for each of them. The parser takes one.
-/

namespace FlexQL.Proofs

open Lib FlexQL.Ref FlexQL.Spec FlexQL.Spec.Grammar

section Operators

variable [FloatLib]

/-- A `WHERE` that is understood lets the pairs through that satisfy it. -/
theorem joinPairs_satisfies {j : Executor.JoinTables} {whereClause : Option WhereClause}
    (h : ∀ w, whereClause = some w → joinBound j w ≠ none) (op : CmpOp) (i k : Nat)
    (leftRows rightRows : List Row) :
    joinPairs j whereClause op i k leftRows rightRows =
      ((leftRows ×ˢ rightRows).filter (onHolds op i k)).filter (satisfies j whereClause) := by
  have hall : (whereClause.all fun w => (joinBound j w).isSome) = true := by
    cases whereClause with
    | none => rfl
    | some w => exact Option.isSome_iff_ne_none.mpr (h w rfl)
  rw [joinPairs]
  refine List.filter_congr fun p _ => ?_
  rw [satisfies, hall, Bool.true_and]

/-- A text that joins two tables as documented is accepted, and answered with
the pairs its operator holds of, just when the operator is `=`. -/
theorem executeSql_joins_iff {ex : Executor} (hreach : Reachable ex) {sql : Bytes}
    {rest : List Token} (stmt : SelectStmt) (join : JoinClause)
    (hlex : (Lexer.tokenize sql).2 = [])
    (hread : Sentence .documented (Lexer.tokenize sql).1 (.select stmt) rest)
    (hend : kind rest = .endOfInput) (hjoin : stmt.join = some join) {left right : Table}
    (hleft : ex.tables.lookup (Bytes.toUpper stmt.tableName) = some left)
    (hright : ex.tables.lookup (Bytes.toUpper join.rightTable) = some right) {i k : Nat}
    (hi : left.schema.findColumn (Bytes.toUpper join.leftCol.column) = some i)
    (hk : right.schema.findColumn (Bytes.toUpper join.rightCol.column) = some k)
    {now : Int64} {leftRows rightRows : List Row} (hL : left.scanAll now = .ok leftRows)
    (hR : right.scanAll now = .ok rightRows)
    {cols : List (Bytes × Executor.Side × Nat)}
    (hout : outputs (joinOf stmt join left right) stmt = .ok cols)
    (hwhere : ∀ w, stmt.whereClause = some w → joinBound (joinOf stmt join left right) w ≠ none)
    (hmiss : ∃ cache, Executor.lookupCache ex.cache sql = .ok (cache, none)) :
    (parseSql sql = .ok (.ok (.select stmt)) ∧
      ∃ ex' r, ex.executeSql now sql = .ok (ex', r) ∧ r.success = true ∧
        r.columnNames = cols.map (·.1) ∧
        r.rows = (((leftRows ×ˢ rightRows).filter (onHolds (Executor.convertOp join.op) i k)).filter
          (satisfies (joinOf stmt join left right) stmt.whereClause)).map
            (gather (cols.map (·.2)))) ↔
      join.op = .eq := by
  have hcons := reachable_consistent hreach
  constructor
  · rintro ⟨hparse, -⟩
    obtain ⟨ts, hparse⟩ := parseSql_ok hparse
    exact (reading_of_parse hparse).2 join hjoin
  · intro hop
    have hreading := reading_of_end hread hend
    have hlax : Reading .lax (Lexer.tokenize sql).1 (.select stmt) rest := by
      obtain ⟨ts', hstmt, hcont, hrest⟩ := hreading
      exact ⟨ts', stmt_lax hstmt, hcont, hrest⟩
    have hby : JoinsByEq (.select stmt) := by
      intro j hj
      rw [← Option.some.inj (hjoin.symm.trans hj)]
      exact hop
    have hparse : parseSql sql = .ok (.ok (.select stmt)) := by
      have hrun := parse_of_reading hlax hby
      rw [parseSql]
      simp only [hlex, hrun, List.isEmpty_nil, Bool.not_true, Bool.false_eq_true, if_false]
    refine ⟨hparse, ?_⟩
    have hexec : ex.executeSql now sql = ex.execSelect now stmt sql := by
      rw [Executor.executeSql, hparse]
      rfl
    rw [hexec, hcons.execSelect_miss hmiss,
      selectRows_join now stmt join hjoin hleft hright (hcons.tables _ left hleft).indexed
        (hcons.tables _ right hright).indexed hi hk, hL, Outcome.bind_ok, hR, Outcome.bind_ok]
    refine ⟨_, rfl, ?_⟩
    rw [joinResult, hout, joinPairs_satisfies hwhere]
    exact ⟨rfl, rfl, rfl⟩

end Operators

section Runs

attribute [local instance] noDoubles

/-- The tokens of `onIdText`. -/
def onIdTokens (k : TokenType) (op : String) : List Token :=
  [⟨.kwSelect, Bytes.lit "SELECT", 1, 1⟩, ⟨.star, Bytes.lit "*", 1, 8⟩,
    ⟨.kwFrom, Bytes.lit "FROM", 1, 10⟩, ⟨.identifier, Bytes.lit "A", 1, 15⟩,
    ⟨.kwInner, Bytes.lit "INNER", 1, 17⟩, ⟨.kwJoin, Bytes.lit "JOIN", 1, 23⟩,
    ⟨.identifier, Bytes.lit "B", 1, 28⟩, ⟨.kwOn, Bytes.lit "ON", 1, 30⟩,
    ⟨.identifier, Bytes.lit "A", 1, 33⟩, ⟨.dot, Bytes.lit ".", 1, 34⟩,
    ⟨.identifier, Bytes.lit "ID", 1, 35⟩, ⟨k, Bytes.lit op, 1, 38⟩,
    ⟨.identifier, Bytes.lit "B", 1, 40⟩, ⟨.dot, Bytes.lit ".", 1, 41⟩,
    ⟨.identifier, Bytes.lit "ID", 1, 42⟩, ⟨.endOfInput, [], 1, 44⟩]

theorem sentence_onIdTokens (k : TokenType) (s : String) {op : AstCmpOp}
    (h : cmpOpOf k = some op) : Sentence .documented (onIdTokens k s)
      (.select (selectFrom { joinB (Bytes.lit "ID") with op := op } none))
      [⟨.endOfInput, [], 1, 44⟩] := by
  have hleft : ColRef .documented ((onIdTokens k s).drop 8) (joinB (Bytes.lit "ID")).leftCol
      ((onIdTokens k s).drop 11) :=
    .qualified (.inl rfl) rfl rfl (.inl rfl)
  have hright : ColRef .documented ((onIdTokens k s).drop 12) (joinB (Bytes.lit "ID")).rightCol
      ((onIdTokens k s).drop 15) :=
    .qualified (.inl rfl) rfl rfl (.inl rfl)
  exact ⟨_, .select rfl (.star rfl) rfl rfl
    (.inner rfl rfl rfl rfl rfl rfl rfl hleft h hright) .none, .inl rfl⟩

theorem executeSql_joins_iff_id : ∃ ex ex' r, Reachable ex ∧
    ex.executeSql 0 (onIdText "=") = .ok (ex', r) ∧ r.success = true ∧
    r.rows.length = 2 := by
  obtain ⟨ex, a, b, h⟩ := twoTables_run
  have hlex : Lexer.tokenize (onIdText "=") = (onIdTokens .opEq "=", []) := by decide +kernel
  have hread := sentence_onIdTokens .opEq "=" rfl
  rw [show onIdTokens .opEq "=" = _ from (congrArg Prod.fst hlex).symm] at hread
  obtain ⟨-, ex', r, hrun, hsuccess, -, hrows⟩ :=
    (executeSql_joins_iff h.reach (selectFrom (joinB (Bytes.lit "ID")) none)
      (joinB (Bytes.lit "ID")) (congrArg Prod.snd hlex) hread rfl rfl h.left h.right h.leftId
      h.rightId h.leftRows h.rightRows rfl nofun h.uncached).mpr rfl
  exact ⟨ex, ex', r, h.reach, hrun, hsuccess, by rw [hrows]; rfl⟩

/-- A documented join by `<` is not a statement to the parser. -/
theorem join_by_less_refused : (∃ rest,
      Sentence .documented (Lexer.tokenize (onIdText "<")).1
        (.select (selectFrom { joinB (Bytes.lit "ID") with op := .lt } none)) rest ∧
      kind rest = .endOfInput) ∧
    parseSql (onIdText "<") = .ok (.error (Bytes.lit "Expected '=' in JOIN condition")) ∧
    ∀ (ex : Executor) now, ∃ r, ex.executeSql now (onIdText "<") = .ok (ex, r) ∧
      r.success = false := by
  have hlex : (Lexer.tokenize (onIdText "<")).1 = onIdTokens .opLt "<" := by decide +kernel
  have hparse : parseSql (onIdText "<") =
      .ok (.error (Bytes.lit "Expected '=' in JOIN condition")) := by
    decide +kernel
  rw [hlex]
  refine ⟨⟨_, sentence_onIdTokens .opLt "<" rfl, rfl⟩, hparse, fun ex now => ?_⟩
  rw [Executor.executeSql, hparse]
  exact ⟨_, rfl, rfl⟩

end Runs

end FlexQL.Proofs
