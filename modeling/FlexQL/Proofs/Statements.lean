import FlexQL.Ref.Database

/-!
# What the text of a statement says about it

The log is fed by a classifier that looks at the first word of a text, and
the executor by a lexer and a parser. They agree: the first word of a text
the parser accepts is the keyword of its statement. A name in a statement is
a token of the text, so it is no longer than the text.
-/

namespace FlexQL.Proofs

open Lib FlexQL.Ref

/-! ## The first word -/

theorem takeWhile_eq_of_all {α : Type} {p q : α → Bool} {l : List α}
    (hpq : ∀ a, p a = true → q a = true) (hall : ∀ a ∈ l.takeWhile q, p a = true) :
    l.takeWhile p = l.takeWhile q := by
  induction l with
  | nil => rfl
  | cons a l ih =>
      by_cases hq : q a = true
      · rw [List.takeWhile_cons_of_pos hq] at hall ⊢
        rw [List.takeWhile_cons_of_pos (hall a (by simp)), ih fun b hb => hall b (by simp [hb])]
      · rw [List.takeWhile_cons_of_neg hq, List.takeWhile_cons_of_neg fun hp => hq (hpq a hp)]

theorem drop_length_takeWhile {α : Type} (p : α → Bool) (l : List α) :
    l.drop (l.takeWhile p).length = l.dropWhile p := by
  have h : (l.takeWhile p ++ l.dropWhile p).drop (l.takeWhile p).length = l.dropWhile p :=
    List.drop_left
  rwa [List.takeWhile_append_dropWhile] at h

theorem skipWhitespace_rest (l : Lexer) :
    l.skipWhitespace.rest = l.rest.dropWhile Bytes.isSpace := by
  rw [Lexer.skipWhitespace, Lexer.advanceBy_rest, drop_length_takeWhile]

theorem pair_mem_of_lookup {α β : Type} [BEq α] [LawfulBEq α] {a : α} {b : β} {l : List (α × β)}
    (h : l.lookup a = some b) : (a, b) ∈ l := by
  obtain ⟨l₁, l₂, rfl, _⟩ := List.lookup_eq_some_iff.mp h
  simp

/-- The types of the keywords. -/
def keywordTypes : List TokenType := keywords.map (·.2)

theorem readNumber_type (l : Lexer) : l.readNumber.1.type ∉ keywordTypes := by
  rw [Lexer.readNumber]
  simp only
  split <;> decide

theorem readSymbol_type (l : Lexer) (c : UInt8) (col : Nat) :
    (l.readSymbol c col).1.type ∉ keywordTypes := by
  have hsym : ∀ p ∈ Lexer.symbols, p.2 ∉ keywordTypes := by decide
  rw [Lexer.readSymbol]
  split
  · next type h => exact hsym _ (pair_mem_of_lookup h)
  · repeat' split
    all_goals
      simp only [Lexer.single, Lexer.double, Lexer.unexpected]
      decide

/-- Only a word can be a keyword. -/
theorem nextToken_keyword {l : Lexer} {c : UInt8} (h : (l.nextToken c).1.type ∈ keywordTypes) :
    (Bytes.toUpper (l.rest.takeWhile Lexer.isWordChar), (l.nextToken c).1.type) ∈ keywords := by
  rw [Lexer.nextToken] at h ⊢
  split
  · next hd =>
      rw [if_pos hd] at h
      exact absurd h (readNumber_type l)
  · next hd =>
      rw [if_neg hd] at h
      split
      · next hm =>
          rw [if_pos hm] at h
          have hnot := readNumber_type l.advance
          dsimp only at h
          split at h
          · exact absurd h (by decide)
          · exact absurd h hnot
      · next hm =>
          rw [if_neg hm] at h
          split
          · next hw =>
              rw [if_pos hw] at h
              rw [Lexer.readIdentifierOrKeyword] at h ⊢
              cases hlook : keywords.lookup (Bytes.toUpper (l.rest.takeWhile Lexer.isWordChar)) with
              | some type => exact pair_mem_of_lookup hlook
              | none =>
                  rw [hlook] at h
                  exact absurd (show TokenType.identifier ∈ keywordTypes from h) (by decide)
          · next hw =>
              rw [if_neg hw] at h
              split at h
              · exact absurd (show TokenType.stringLiteral ∈ keywordTypes from h) (by decide)
              · exact absurd h (readSymbol_type _ _ _)

theorem tokenizeLoop_nil {l : Lexer} (h : l.skipWhitespace.rest = []) :
    l.tokenizeLoop = ([], l.skipWhitespace) := by
  rw [Lexer.tokenizeLoop]
  split
  · rfl
  · next hcons => rw [h] at hcons; exact absurd hcons (by simp)

theorem tokenizeLoop_cons {l : Lexer} {c : UInt8} {cs : Bytes}
    (h : l.skipWhitespace.rest = c :: cs) :
    l.tokenizeLoop = ((l.skipWhitespace.nextToken c).1 ::
      (l.skipWhitespace.nextToken c).2.tokenizeLoop.1,
      (l.skipWhitespace.nextToken c).2.tokenizeLoop.2) := by
  conv_lhs => rw [Lexer.tokenizeLoop]
  split
  · next hnil => rw [h] at hnil; exact absurd hnil (by simp)
  · next hcons =>
      obtain ⟨rfl, rfl⟩ := List.cons.inj (h.symm.trans hcons)
      rfl

/-- The first token of a text. -/
theorem tokenize_head {sql : Bytes}
    (h : (Parser.current (Lexer.tokenize sql).1).type ∈ keywordTypes) :
    (Bytes.toUpper ((sql.dropWhile Bytes.isSpace).takeWhile Lexer.isWordChar),
      (Parser.current (Lexer.tokenize sql).1).type) ∈ keywords := by
  have hrest : (Lexer.new sql).skipWhitespace.rest = sql.dropWhile Bytes.isSpace :=
    skipWhitespace_rest (Lexer.new sql)
  cases hskip : (Lexer.new sql).skipWhitespace.rest with
  | nil =>
      rw [Lexer.tokenize, tokenizeLoop_nil hskip] at h
      exact absurd (show TokenType.endOfInput ∈ keywordTypes from h) (by decide)
  | cons c cs =>
      rw [Lexer.tokenize, tokenizeLoop_cons hskip] at h ⊢
      rw [← hrest]
      exact nextToken_keyword h

/-! ## Statements and their keywords -/

/-- The keyword a statement starts with. -/
def keyword : Statement → Bytes × TokenType
  | .createTable _ => (Bytes.lit "CREATE", .kwCreate)
  | .insert _ => (Bytes.lit "INSERT", .kwInsert)
  | .select _ => (Bytes.lit "SELECT", .kwSelect)

theorem keyword_mem (stmt : Statement) : keyword stmt ∈ keywords := by
  cases stmt with
  | createTable stmt => exact List.mem_of_elem_eq_true rfl
  | insert stmt => exact List.mem_of_elem_eq_true rfl
  | select stmt => exact List.mem_of_elem_eq_true rfl

theorem keywords_inj : ∀ p ∈ keywords, ∀ q ∈ keywords, p.2 = q.2 → p = q := by
  decide +kernel

theorem keywords_ne_nil : ∀ p ∈ keywords, p.1 ≠ [] := by decide +kernel

theorem keywords_upper : ∀ p ∈ keywords, ∀ c ∈ p.1, Bytes.isUpper c = true := by
  decide +kernel

theorem parseCreateTable_ok {ts ts' : List Token} {stmt : Statement}
    (h : Parser.parseCreateTable ts = .ok (stmt, ts')) : ∃ cols rest,
      stmt = .createTable ⟨(Parser.current ts.tail.tail).value, cols⟩ ∧
      Parser.columnDefs ts.tail.tail.tail.tail = .ok (cols, rest) := by
  obtain ⟨ts₁, h₁, hk₁⟩ := Outcome.bind_eq_ok.mp h
  obtain ⟨⟨name, ts₂⟩, h₂, hk₂⟩ := Outcome.bind_eq_ok.mp hk₁
  obtain ⟨ts₃, h₃, hk₃⟩ := Outcome.bind_eq_ok.mp hk₂
  obtain ⟨⟨cols, ts₄⟩, h₄, hk₄⟩ := Outcome.bind_eq_ok.mp hk₃
  obtain ⟨ts₅, _, hk₅⟩ := Outcome.bind_eq_ok.mp hk₄
  obtain ⟨rfl, _⟩ := Prod.mk.inj (Except.ok.inj hk₅)
  obtain ⟨_, rfl⟩ := Parser.expect_ok h₁
  obtain ⟨_, rfl, rfl⟩ := Parser.identifier_ok h₂
  obtain ⟨_, rfl⟩ := Parser.expect_ok h₃
  exact ⟨cols, ts₄, rfl, h₄⟩

theorem parseInsert_ok {ts ts' : List Token} {stmt : Statement}
    (h : Parser.parseInsert ts = .ok (stmt, ts')) :
    ∃ batch, stmt = .insert ⟨(Parser.current ts.tail.tail).value, batch⟩ := by
  obtain ⟨ts₁, h₁, hk₁⟩ := Outcome.bind_eq_ok.mp h
  obtain ⟨⟨name, ts₂⟩, h₂, hk₂⟩ := Outcome.bind_eq_ok.mp hk₁
  obtain ⟨ts₃, _, hk₃⟩ := Outcome.bind_eq_ok.mp hk₂
  obtain ⟨⟨batch, ts₄⟩, _, hk₄⟩ := Outcome.bind_eq_ok.mp hk₃
  obtain ⟨rfl, _⟩ := Prod.mk.inj (Except.ok.inj hk₄)
  obtain ⟨_, rfl⟩ := Parser.expect_ok h₁
  obtain ⟨_, rfl, rfl⟩ := Parser.identifier_ok h₂
  exact ⟨batch, rfl⟩

theorem parseSelect_ok {ts ts' : List Token} {stmt : Statement}
    (h : Parser.parseSelect ts = .ok (stmt, ts')) : ∃ sel, stmt = .select sel := by
  obtain ⟨⟨⟨all, cols⟩, ts₁⟩, _, hk₁⟩ := Outcome.bind_eq_ok.mp h
  obtain ⟨ts₂, _, hk₂⟩ := Outcome.bind_eq_ok.mp hk₁
  obtain ⟨⟨name, ts₃⟩, _, hk₃⟩ := Outcome.bind_eq_ok.mp hk₂
  obtain ⟨⟨join, ts₄⟩, _, hk₄⟩ := Outcome.bind_eq_ok.mp hk₃
  obtain ⟨rfl, _⟩ := Prod.mk.inj (Except.ok.inj hk₄)
  exact ⟨_, rfl⟩

/-- A text the parser accepts starts with a token of its keyword. -/
theorem parse_head {ts ts' : List Token} {stmt : Statement}
    (h : Parser.parse ts = .ok (stmt, ts')) : (Parser.current ts).type = (keyword stmt).2 := by
  rw [Parser.parse] at h
  split at h
  · next hk =>
      obtain ⟨cols, rest, rfl, _⟩ := parseCreateTable_ok h
      exact hk
  · next hk =>
      obtain ⟨batch, rfl⟩ := parseInsert_ok h
      exact hk
  · next hk =>
      obtain ⟨sel, rfl⟩ := parseSelect_ok h
      exact hk
  · exact absurd h (by simp [Parser.fail])

theorem parseSql_ok {sql : Bytes} {stmt : Statement} (h : parseSql sql = .ok (.ok stmt)) :
    ∃ ts, Parser.parse (Lexer.tokenize sql).1 = .ok (stmt, ts) := by
  rw [parseSql] at h
  dsimp only at h
  split at h
  · exact absurd h (by simp)
  · split at h
    · next hparse =>
        obtain rfl := Except.ok.inj (Except.ok.inj h)
        exact ⟨_, hparse⟩
    · exact absurd h (by simp)
    · exact absurd h (by simp)

/-- The first word of an accepted text, as the classifier reads it. -/
theorem parseSql_word {sql : Bytes} {stmt : Statement} (h : parseSql sql = .ok (.ok stmt)) :
    Bytes.toUpper ((sql.dropWhile Bytes.isSpace).takeWhile Bytes.isAlpha)
      = (keyword stmt).1 := by
  obtain ⟨ts, hparse⟩ := parseSql_ok h
  have hhead := parse_head hparse
  have htype : (Parser.current (Lexer.tokenize sql).1).type ∈ keywordTypes := by
    rw [hhead]
    exact List.mem_map_of_mem (keyword_mem stmt)
  have hkw := tokenize_head htype
  have hword := congrArg Prod.fst (keywords_inj _ hkw _ (keyword_mem stmt) hhead)
  dsimp only at hword
  -- the lexer's word has letters only, so both stop at its end
  rw [← hword]
  refine congrArg _ (takeWhile_eq_of_all (Bytes.forall_byte (by decide +kernel)) fun c hc => ?_)
  have hup : Bytes.isUpper (Bytes.upperChar c) = true := by
    refine keywords_upper _ (keyword_mem stmt) _ ?_
    rw [← hword]
    exact List.mem_map_of_mem hc
  have halpha : ∀ c, Bytes.isUpper (Bytes.upperChar c) = true → Bytes.isAlpha c = true :=
    Bytes.forall_byte (by decide +kernel)
  exact halpha c hup

/-- The classifier is right about every text the parser accepts. -/
theorem isMutatingSql_iff {sql : Bytes} {stmt : Statement} (h : parseSql sql = .ok (.ok stmt)) :
    isMutatingSql sql = true ↔ ∀ sel, stmt ≠ .select sel := by
  have hword := parseSql_word h
  rw [isMutatingSql]
  cases hrest : sql.dropWhile Bytes.isSpace with
  | nil =>
      rw [hrest] at hword
      exact absurd hword.symm (keywords_ne_nil _ (keyword_mem stmt))
  | cons c cs =>
      rw [hrest] at hword
      simp only [List.isEmpty_cons, Bool.false_eq_true, if_false, hword]
      cases stmt with
      | createTable stmt => simp [keyword]
      | insert stmt => simp [keyword]
      | select sel =>
          have hno : (decide (Bytes.lit "SELECT" = Bytes.lit "CREATE") ||
              decide (Bytes.lit "SELECT" = Bytes.lit "INSERT")) = false := rfl
          exact ⟨fun hm => absurd (hm.symm.trans hno) (by simp), fun hm => absurd rfl (hm sel)⟩

/-! ## The length of a name -/

theorem tokenizeLoop_value {n : Nat} {l : Lexer} (hn : l.rest.length ≤ n) :
    ∀ t ∈ l.tokenizeLoop.1, t.value.length ≤ n := by
  induction hlen : l.rest.length using Nat.strong_induction_on generalizing l with
  | h len ih =>
      subst hlen
      cases hskip : l.skipWhitespace.rest with
      | nil =>
          rw [tokenizeLoop_nil hskip]
          simp
      | cons c cs =>
          have htakes := Lexer.takes_nextToken hskip
          have hle := l.skipWhitespace_le
          rw [tokenizeLoop_cons hskip]
          intro t ht
          rcases List.mem_cons.mp ht with rfl | ht
          · have := htakes.2
            omega
          · have hlt := Nat.lt_of_lt_of_le htakes.1 hle
            exact ih _ hlt (by omega) rfl t ht

/-- Every token has a value of at most `n` bytes. -/
def Short (n : Nat) (ts : List Token) : Prop := ∀ t ∈ ts, t.value.length ≤ n

theorem tokenize_short (sql : Bytes) : Short sql.length (Lexer.tokenize sql).1 := by
  intro t ht
  rcases List.mem_append.mp ht with ht | ht
  · have hle : (Lexer.new sql).rest.length ≤ sql.length := Nat.le_refl _
    exact tokenizeLoop_value hle t ht
  · rw [List.mem_singleton.mp ht]
    exact Nat.zero_le _

section Short

variable {n : Nat} {ts ts' : List Token}

theorem Short.suffix (h : Short n ts) (hs : ts' <:+ ts) : Short n ts' :=
  fun t ht => h t (hs.subset ht)

theorem Short.tail (h : Short n ts) : Short n ts.tail := h.suffix (List.tail_suffix _)

theorem Short.current (h : Short n ts) : (Parser.current ts).value.length ≤ n := by
  cases ts with
  | nil => exact Nat.zero_le _
  | cons t ts => exact h t (by simp)

theorem columnDefs_short {cols : List AstColumnDef} (h : Short n ts)
    (hrun : Parser.columnDefs ts = .ok (cols, ts')) : ∀ col ∈ cols, col.name.length ≤ n := by
  induction hlen : ts.length using Nat.strong_induction_on generalizing ts ts' cols with
  | h len ih =>
      subst hlen
      rw [Parser.columnDefs] at hrun
      split at hrun
      · obtain ⟨rfl, _⟩ := Prod.mk.inj (Except.ok.inj hrun)
        simp
      · split at hrun
        · exact absurd hrun (by simp)
        · next col ts₁ hcol =>
            obtain ⟨_, hname, hsuf⟩ := Parser.columnDef_ok hcol
            have hlt := Parser.columnDef_lt hcol
            have hshort : Short n ts₁ := h.tail.suffix hsuf
            split at hrun
            · obtain ⟨⟨cols', ts₂⟩, hrec, hrun⟩ := Outcome.bind_eq_ok.mp hrun
              obtain ⟨rfl, _⟩ := Prod.mk.inj (Except.ok.inj hrun)
              have htail : ts₁.tail.length < ts.length := by
                rw [List.length_tail]
                omega
              intro c hc
              rcases List.mem_cons.mp hc with rfl | hc
              · rw [hname]
                exact h.current
              · exact ih _ htail hshort.tail hrec rfl c hc
            · obtain ⟨rfl, _⟩ := Prod.mk.inj (Except.ok.inj hrun)
              intro c hc
              rw [List.mem_singleton.mp hc, hname]
              exact h.current

end Short

/-- The names in a `CREATE TABLE` are no longer than its text. -/
theorem createTable_names {sql : Bytes} {stmt : CreateTableStmt}
    (h : parseSql sql = .ok (.ok (.createTable stmt))) :
    stmt.tableName.length ≤ sql.length ∧
      ∀ col ∈ stmt.columns, col.name.length ≤ sql.length := by
  obtain ⟨ts, hparse⟩ := parseSql_ok h
  have hhead : (Parser.current (Lexer.tokenize sql).1).type = .kwCreate := parse_head hparse
  rw [Parser.parse, hhead] at hparse
  obtain ⟨cols, rest, hstmt, hcols⟩ := parseCreateTable_ok hparse
  obtain rfl := Statement.createTable.inj hstmt
  have hshort := tokenize_short sql
  exact ⟨hshort.tail.tail.current, columnDefs_short hshort.tail.tail.tail.tail hcols⟩

end FlexQL.Proofs
