import FlexQL.Proofs.Grammar
import FlexQL.Spec.CaseFolding

/-!
# Texts in upper case

The tokens of a text in upper case are the tokens of the text with their
values in upper case: no character is taken for one of another kind. The
parser looks at the types of the tokens, so it reads the same statement from
them in upper case, or fails at the same token.
-/

namespace FlexQL.Proofs

open Lib FlexQL.Ref FlexQL.Spec FlexQL.Spec.Grammar

/-! ## Tokens -/

/-- A token with its value in upper case. -/
def upperToken (t : Token) : Token := { t with value := Bytes.toUpper t.value }

/-- A lexer in front of the same input in upper case. -/
def upperLexer (l : Lexer) : Lexer := { l with rest := Bytes.toUpper l.rest }

/-- What a step of the lexer answers to the input in upper case. -/
def upperStep (r : Token × Lexer) : Token × Lexer := (upperToken r.1, upperLexer r.2)

section Tokens

variable (l : Lexer)

@[simp] theorem upperLexer_line : (upperLexer l).line = l.line := rfl

@[simp] theorem upperLexer_col : (upperLexer l).col = l.col := rfl

@[simp] theorem upperLexer_rest : (upperLexer l).rest = Bytes.toUpper l.rest := rfl

theorem peek_upper : (upperLexer l).peek = Bytes.upperChar l.peek := by
  rw [Lexer.peek, Lexer.peek, upperLexer_rest]
  cases l.rest with
  | nil => rfl
  | cons c cs => rfl

theorem advance_upper : (upperLexer l).advance = upperLexer l.advance := by
  rcases l with ⟨_ | ⟨c, cs⟩, line, col, error⟩
  · rfl
  · simp only [Lexer.advance, upperLexer, Bytes.toUpper_cons,
      Bytes.upperChar_eq_iff (show Bytes.isAlpha 10 = false from rfl)]
    split <;> rfl

theorem advanceBy_upper (n : Nat) : (upperLexer l).advanceBy n = upperLexer (l.advanceBy n) := by
  induction n generalizing l with
  | zero => rfl
  | succ n ih => rw [Lexer.advanceBy, Lexer.advanceBy, advance_upper, ih]

theorem skipWhitespace_upper : (upperLexer l).skipWhitespace = upperLexer l.skipWhitespace := by
  rw [Lexer.skipWhitespace, Lexer.skipWhitespace, upperLexer_rest,
    Bytes.takeWhile_toUpper Bytes.isSpace_upperChar, Bytes.toUpper_length, advanceBy_upper]

theorem readDigits_upper (hasDot : Bool) (w : Bytes) :
    Lexer.readDigits hasDot (Bytes.toUpper w) =
      (Bytes.toUpper (Lexer.readDigits hasDot w).1, (Lexer.readDigits hasDot w).2) := by
  induction w generalizing hasDot with
  | nil => rfl
  | cons c cs ih =>
      simp only [Bytes.toUpper_cons, Lexer.readDigits, Bytes.isDigit_upperChar,
        Bytes.upperChar_eq_iff (show Bytes.isAlpha 46 = false from rfl), ih]
      split
      · rfl
      · split <;> rfl

theorem readNumber_upper : (upperLexer l).readNumber = upperStep l.readNumber := by
  simp only [Lexer.readNumber, upperLexer_rest, readDigits_upper, Bytes.toUpper_length,
    advanceBy_upper, upperLexer_line, upperLexer_col, upperStep, upperToken]

theorem isWordChar_upperChar (c : UInt8) :
    Lexer.isWordChar (Bytes.upperChar c) = Lexer.isWordChar c := by
  simp only [Lexer.isWordChar, Bytes.isAlnum, Bytes.isAlpha_upperChar, Bytes.isDigit_upperChar,
    Bytes.upperChar_eq_iff (show Bytes.isAlpha 95 = false from rfl)]

theorem readIdentifierOrKeyword_upper :
    (upperLexer l).readIdentifierOrKeyword = upperStep l.readIdentifierOrKeyword := by
  simp only [Lexer.readIdentifierOrKeyword, upperLexer_rest,
    Bytes.takeWhile_toUpper isWordChar_upperChar, Bytes.toUpper_idem, Bytes.toUpper_length,
    advanceBy_upper, upperLexer_line, upperLexer_col]
  split <;> simp only [upperStep, upperToken, Bytes.toUpper_idem]

theorem readQuoted_upper {quote : UInt8} (hquote : Bytes.isAlpha quote = false) : ∀ w : Bytes,
    Lexer.readQuoted quote (Bytes.toUpper w) =
      (Bytes.toUpper (Lexer.readQuoted quote w).1, (Lexer.readQuoted quote w).2)
  | [] => rfl
  | [c] => by
      simp only [Bytes.toUpper_cons, Bytes.toUpper_nil, Lexer.readQuoted,
        Bytes.upperChar_eq_iff hquote,
        Bytes.upperChar_eq_iff (show Bytes.isAlpha 92 = false from rfl)]
      split
      · rfl
      · split <;> rfl
  | c :: d :: cs => by
      have hcs := readQuoted_upper hquote cs
      have hdcs := readQuoted_upper hquote (d :: cs)
      rw [Bytes.toUpper_cons] at hdcs
      simp only [Bytes.toUpper_cons, Lexer.readQuoted, Bytes.upperChar_eq_iff hquote,
        Bytes.upperChar_eq_iff (show Bytes.isAlpha 92 = false from rfl), hcs, hdcs]
      split
      · rfl
      · split <;> rfl

theorem readString_upper (h : Bytes.isAlpha l.peek = false) :
    (upperLexer l).readString = upperStep l.readString := by
  simp only [Lexer.readString, peek_upper, Bytes.upperChar_of_not_isAlpha _ h, advance_upper,
    upperLexer_rest, readQuoted_upper h, advanceBy_upper]
  split <;> rfl

/-- The characters `readSymbol` is called with are no letters. -/
theorem readSymbol_upper {c : UInt8} (h : Bytes.isAlpha c = false) (startCol : Nat) :
    (upperLexer l).readSymbol c startCol = upperStep (l.readSymbol c startCol) := by
  have hc := Bytes.upperChar_of_not_isAlpha c h
  have hsingle : ∀ type, (upperLexer l).single type c startCol =
      upperStep (l.single type c startCol) := by
    intro type
    simp only [Lexer.single, upperLexer_line, upperStep, upperToken, Bytes.toUpper_cons, hc,
      Bytes.toUpper_nil]
  have hdouble : ∀ type, (upperLexer l).double type c startCol =
      upperStep (l.double type c startCol) := by
    intro type
    simp only [Lexer.double, peek_upper, advance_upper, upperLexer_line, upperStep, upperToken,
      Bytes.toUpper_cons, hc, Bytes.toUpper_nil]
  have hunexpected : (upperLexer l).unexpected c startCol =
      upperStep (l.unexpected c startCol) := by
    simp only [Lexer.unexpected, upperLexer_line, upperStep, upperToken, Bytes.toUpper_cons, hc,
      Bytes.toUpper_nil]
    rfl
  simp only [Lexer.readSymbol, peek_upper, hsingle, hdouble, hunexpected,
    Bytes.upperChar_eq_iff (show Bytes.isAlpha 61 = false from rfl),
    Bytes.upperChar_eq_iff (show Bytes.isAlpha 62 = false from rfl)]
  split
  · rfl
  · simp only [apply_ite upperStep]

theorem getD_upper (n : Nat) :
    (Bytes.toUpper l.rest).getD n 0 = Bytes.upperChar (l.rest.getD n 0) := by
  rw [List.getD_eq_getElem?_getD, List.getD_eq_getElem?_getD, Bytes.toUpper, List.getElem?_map]
  cases l.rest[n]? <;> rfl

theorem contains_upper {k : UInt8} (hk : Bytes.isAlpha k = false) (w : Bytes) :
    (Bytes.toUpper w).contains k = w.contains k := by
  rw [Bool.eq_iff_iff, List.contains_iff_mem, List.contains_iff_mem, Bytes.toUpper, List.mem_map]
  constructor
  · rintro ⟨c, hc, hk'⟩
    rwa [← (Bytes.upperChar_eq_iff hk).mp hk']
  · exact fun h => ⟨k, h, Bytes.upperChar_of_not_isAlpha k hk⟩

theorem nextToken_upper {c : UInt8} {cs : Bytes} (h : l.rest = c :: cs) :
    (upperLexer l).nextToken (Bytes.upperChar c) = upperStep (l.nextToken c) := by
  have hpeek : l.peek = c := by rw [Lexer.peek, h]; rfl
  rw [Lexer.nextToken, Lexer.nextToken]
  simp only [Bytes.isDigit_upperChar, Bytes.isAlpha_upperChar, upperLexer_rest, getD_upper,
    Bytes.upperChar_eq_iff (show Bytes.isAlpha 45 = false from rfl),
    Bytes.upperChar_eq_iff (show Bytes.isAlpha 95 = false from rfl),
    Bytes.upperChar_eq_iff (show Bytes.isAlpha 39 = false from rfl),
    Bytes.upperChar_eq_iff (show Bytes.isAlpha 34 = false from rfl)]
  split
  · exact readNumber_upper l
  · split
    · simp only [advance_upper, readNumber_upper, upperStep, upperToken, upperLexer_col,
        ← Bytes.toUpper_cons, contains_upper (show Bytes.isAlpha 46 = false from rfl)]
    · split
      · exact readIdentifierOrKeyword_upper l
      · next hword =>
          have hc : Bytes.isAlpha c = false := by
            rw [Bool.or_eq_true, not_or] at hword
            exact Bool.eq_false_iff.mpr hword.1
          split
          · exact readString_upper l (by rwa [hpeek])
          · rw [Bytes.upperChar_of_not_isAlpha c hc, advance_upper, upperLexer_col]
            exact readSymbol_upper _ hc _

theorem tokenizeLoop_upper : (upperLexer l).tokenizeLoop =
    (l.tokenizeLoop.1.map upperToken, upperLexer l.tokenizeLoop.2) := by
  induction hlen : l.rest.length using Nat.strongRecOn generalizing l with
  | ind len ih =>
      subst hlen
      cases hrest : l.skipWhitespace.rest with
      | nil =>
          have hrest' : (upperLexer l).skipWhitespace.rest = [] := by
            rw [skipWhitespace_upper, upperLexer_rest, hrest]
            rfl
          rw [tokenizeLoop_nil hrest, tokenizeLoop_nil hrest', skipWhitespace_upper]
          rfl
      | cons c cs =>
          have hrest' : (upperLexer l).skipWhitespace.rest =
              Bytes.upperChar c :: Bytes.toUpper cs := by
            rw [skipWhitespace_upper, upperLexer_rest, hrest]
            rfl
          have hlt : (l.skipWhitespace.nextToken c).2.rest.length < l.rest.length :=
            Nat.lt_of_lt_of_le (Lexer.takes_nextToken hrest).1 l.skipWhitespace_le
          rw [tokenizeLoop_cons hrest, tokenizeLoop_cons hrest', skipWhitespace_upper,
            nextToken_upper _ hrest]
          simp only [upperStep]
          rw [ih _ hlt _ rfl]
          rfl

/-- The tokens of a text in upper case; the error is the same. -/
theorem tokenize_upper (sql : Bytes) : Lexer.tokenize (Bytes.toUpper sql) =
    ((Lexer.tokenize sql).1.map upperToken, (Lexer.tokenize sql).2) := by
  have hloop := tokenizeLoop_upper (Lexer.new sql)
  rw [show upperLexer (Lexer.new sql) = Lexer.new (Bytes.toUpper sql) from rfl] at hloop
  rw [Lexer.tokenize, Lexer.tokenize, hloop]
  simp only [List.map_append, List.map_cons, List.map_nil]
  rfl

end Tokens

/-! ## The parser -/

/-- Two parses that end alike: both read something, both leave a message, or
both throw. -/
def EndsAlike {α β : Type} (R : α → β → Prop) : ParseResult α → ParseResult β → Prop
  | .ok a, .ok b => R a b
  | .error (.message _), .error (.message _) => True
  | .error .thrown, .error .thrown => True
  | _, _ => False

namespace EndsAlike

variable {α β γ α' β' : Type} {R : α → β → Prop} {S : α' → β' → Prop} {x : ParseResult α}
  {y : ParseResult β}

theorem bind_of_ok {f : α → ParseResult α'} {g : β → ParseResult β'} (h : EndsAlike R x y)
    (hfg : ∀ a b, x = .ok a → R a b → EndsAlike S (f a) (g b)) :
    EndsAlike S (x >>= f) (y >>= g) := by
  rcases x with (text | _) | a <;> rcases y with (text' | _) | b
  all_goals first
    | exact h.elim
    | exact hfg a b rfl h
    | trivial

theorem bind {f : α → ParseResult α'} {g : β → ParseResult β'} (h : EndsAlike R x y)
    (hfg : ∀ a b, R a b → EndsAlike S (f a) (g b)) : EndsAlike S (x >>= f) (y >>= g) :=
  h.bind_of_ok fun a b _ => hfg a b

/-- Two parses that end like a third one end alike. -/
theorem join {S : γ → β → Prop} {z : ParseResult γ} (h : EndsAlike R x y)
    (h' : EndsAlike S z y) : EndsAlike (fun a c => ∃ b, R a b ∧ S c b) x z := by
  rcases x with (text | _) | a <;> rcases y with (text' | _) | b <;> rcases z with (text'' | _) | c
  all_goals first
    | exact h.elim
    | exact h'.elim
    | exact ⟨b, h, h'⟩
    | trivial

end EndsAlike

/-- The second result is the first one with everything in upper case. -/
def Uppers {α : Type} (f : α → α) (x y : α × List Token) : Prop :=
  y = (f x.1, x.2.map upperToken)

def upperWhere (w : WhereClause) : WhereClause :=
  ⟨upperRef w.column, w.op, Bytes.toUpper w.literal⟩

def upperJoin (j : JoinClause) : JoinClause :=
  ⟨Bytes.toUpper j.rightTable, upperRef j.leftCol, upperRef j.rightCol, j.op⟩

/-- The statement with its names and its literals in upper case. -/
def upperStatement : Statement → Statement
  | .createTable stmt => .createTable ⟨Bytes.toUpper stmt.tableName, stmt.columns.map upperColumn⟩
  | .insert stmt => .insert ⟨Bytes.toUpper stmt.tableName,
      stmt.batchValues.map (·.map Bytes.toUpper)⟩
  | .select stmt => .select ⟨Bytes.toUpper stmt.tableName, stmt.columns.map upperRef,
      stmt.selectAll, stmt.whereClause.map upperWhere, stmt.join.map upperJoin⟩

section Parser

variable (ts : List Token)

theorem current_upper : Parser.current (ts.map upperToken) = upperToken (Parser.current ts) := by
  cases ts <;> rfl

@[simp] theorem type_upper :
    (Parser.current (ts.map upperToken)).type = (Parser.current ts).type := by
  rw [current_upper]
  rfl

@[simp] theorem value_upper : (Parser.current (ts.map upperToken)).value =
    Bytes.toUpper (Parser.current ts).value := by
  rw [current_upper]
  rfl

@[simp] theorem kind_upper : kind (ts.map upperToken) = kind ts := type_upper ts

@[simp] theorem text_upper : text (ts.map upperToken) = Bytes.toUpper (text ts) := value_upper ts

theorem skip_upper (type : TokenType) :
    Parser.skip type (ts.map upperToken) = (Parser.skip type ts).map upperToken := by
  simp only [Parser.skip, type_upper, ← List.map_tail, apply_ite (List.map upperToken)]

theorem expect_upper (type : TokenType) (context : Bytes) :
    EndsAlike (fun r r' => r' = r.map upperToken) (Parser.expect type context ts)
      (Parser.expect type context (ts.map upperToken)) := by
  rw [Parser.expect, Parser.expect, type_upper]
  split
  · exact List.map_tail.symm
  · trivial

theorem identifier_upper (text text' : Bytes) : EndsAlike (Uppers Bytes.toUpper)
    (Parser.identifier text ts) (Parser.identifier text' (ts.map upperToken)) := by
  rw [Parser.identifier, Parser.identifier, type_upper, value_upper, ← List.map_tail]
  split
  · exact rfl
  · trivial

/-! Columns -/

theorem columnType_upper (name name' : Bytes) : EndsAlike (Uppers id)
    (Parser.columnType name ts) (Parser.columnType name' (ts.map upperToken)) := by
  rw [Parser.columnType, Parser.columnType, type_upper, ← List.map_tail]
  cases (Parser.current ts).type <;> first | exact rfl | trivial

theorem stoi_upper (w : Bytes) : stoi (Bytes.toUpper w) = stoi w := by
  rw [stoi, stoi, Bytes.leadingInt_toUpper]

theorem varcharLength_upper (typeName : Bytes) : EndsAlike (Uppers id)
    (Parser.varcharLength typeName ts) (Parser.varcharLength typeName (ts.map upperToken)) := by
  simp only [Parser.varcharLength, type_upper, ← List.map_tail, value_upper, stoi_upper]
  split
  · split
    · trivial
    · cases stoi (Parser.current ts.tail).value with
      | none => trivial
      | some n => exact (expect_upper ts.tail.tail _ _).bind fun r r' hr => hr ▸ rfl
  · exact rfl

theorem columnDef_upper : EndsAlike (Uppers upperColumn) (Parser.columnDef ts)
    (Parser.columnDef (ts.map upperToken)) := by
  refine (identifier_upper ts _ _).bind ?_
  rintro ⟨name, ts₁⟩ _ rfl
  refine (columnType_upper ts₁ _ _).bind ?_
  rintro ⟨typeName, ts₂⟩ _ rfl
  refine (varcharLength_upper ts₂ typeName).bind ?_
  rintro ⟨len, ts₃⟩ _ rfl
  exact rfl

theorem columnDefs_upper : EndsAlike (Uppers (List.map upperColumn)) (Parser.columnDefs ts)
    (Parser.columnDefs (ts.map upperToken)) := by
  induction hlen : ts.length using Nat.strongRecOn generalizing ts with
  | ind len ih =>
      subst hlen
      rw [columnDefs_eq, columnDefs_eq (ts.map upperToken), kind_upper]
      split
      · exact rfl
      · refine (columnDef_upper ts).bind_of_ok ?_
        rintro ⟨col, ts₁⟩ _ hcol rfl
        have hlt : ts₁.tail.length < ts.length := by
          have := Parser.columnDef_lt hcol
          rw [List.length_tail]
          omega
        simp only [type_upper, ← List.map_tail]
        split
        · refine (ih _ hlt ts₁.tail rfl).bind ?_
          rintro ⟨cols, ts₂⟩ _ rfl
          exact rfl
        · exact rfl

theorem parseCreateTable_upper : EndsAlike (Uppers upperStatement) (Parser.parseCreateTable ts)
    (Parser.parseCreateTable (ts.map upperToken)) := by
  simp only [Parser.parseCreateTable, ← List.map_tail]
  refine (expect_upper ts.tail _ _).bind ?_
  rintro ts₁ _ rfl
  refine (identifier_upper ts₁ _ _).bind ?_
  rintro ⟨name, ts₂⟩ _ rfl
  refine (expect_upper ts₂ _ _).bind ?_
  rintro ts₃ _ rfl
  refine (columnDefs_upper ts₃).bind ?_
  rintro ⟨cols, ts₄⟩ _ rfl
  refine (expect_upper ts₄ _ _).bind ?_
  rintro ts₅ _ rfl
  exact congrArg (Prod.mk _) (skip_upper ts₅ _)

/-! Values -/

theorem values_upper : ∀ ts : List Token, Parser.values (ts.map upperToken) =
    ((Parser.values ts).1.map Bytes.toUpper, (Parser.values ts).2.map upperToken)
  | [] => rfl
  | [t] => by
      simp only [List.map_cons, List.map_nil, Parser.values, upperToken]
      split <;> rfl
  | t :: u :: us => by
      have hus := values_upper us
      simp only [List.map_cons, Parser.values, upperToken, hus]
      split
      · rfl
      · split <;> rfl

theorem tuple_upper : EndsAlike (Uppers (List.map Bytes.toUpper)) (Parser.tuple ts)
    (Parser.tuple (ts.map upperToken)) := by
  refine (expect_upper ts _ _).bind ?_
  rintro ts₁ _ rfl
  simp only [values_upper]
  refine (expect_upper _ _ _).bind ?_
  rintro ts₂ _ rfl
  exact rfl

theorem tuples_upper : EndsAlike (Uppers (List.map (List.map Bytes.toUpper))) (Parser.tuples ts)
    (Parser.tuples (ts.map upperToken)) := by
  induction hlen : ts.length using Nat.strongRecOn generalizing ts with
  | ind len ih =>
      subst hlen
      rw [tuples_eq, tuples_eq (ts.map upperToken)]
      refine (tuple_upper ts).bind_of_ok ?_
      rintro ⟨row, ts₁⟩ _ hrow rfl
      have hlt : ts₁.tail.length < ts.length := by
        have := Parser.tuple_lt hrow
        rw [List.length_tail]
        omega
      simp only [type_upper, ← List.map_tail]
      split
      · refine (ih _ hlt ts₁.tail rfl).bind ?_
        rintro ⟨rows, ts₂⟩ _ rfl
        exact rfl
      · exact rfl

theorem parseInsert_upper : EndsAlike (Uppers upperStatement) (Parser.parseInsert ts)
    (Parser.parseInsert (ts.map upperToken)) := by
  simp only [Parser.parseInsert, ← List.map_tail]
  refine (expect_upper ts.tail _ _).bind ?_
  rintro ts₁ _ rfl
  refine (identifier_upper ts₁ _ _).bind ?_
  rintro ⟨name, ts₂⟩ _ rfl
  refine (expect_upper ts₂ _ _).bind ?_
  rintro ts₃ _ rfl
  refine (tuples_upper ts₃).bind ?_
  rintro ⟨rows, ts₄⟩ _ rfl
  exact congrArg (Prod.mk _) (skip_upper ts₄ _)

/-! Queries -/

theorem columnRef_upper : Parser.columnRef (ts.map upperToken) =
    (upperRef (Parser.columnRef ts).1, (Parser.columnRef ts).2.map upperToken) := by
  simp only [Parser.columnRef, ← List.map_tail, type_upper, value_upper]
  split <;> rfl

theorem parseWhere_upper : Parser.parseWhere (ts.map upperToken) =
    (upperWhere (Parser.parseWhere ts).1, (Parser.parseWhere ts).2.map upperToken) := by
  rw [parseWhere_eq (columnRef_upper ts), parseWhere_eq (Prod.eta (Parser.columnRef ts)).symm]
  simp only [kind_upper, ← List.map_tail, text_upper]
  cases cmpOpOf (kind (Parser.columnRef ts).2) <;> rfl

theorem optionalWhere_upper : optionalWhere (ts.map upperToken) =
    ((optionalWhere ts).1.map upperWhere, (optionalWhere ts).2.map upperToken) := by
  simp only [optionalWhere, type_upper, ← List.map_tail, parseWhere_upper]
  split <;> rfl

theorem columnRefs_upper : EndsAlike (Uppers (List.map upperRef)) (Parser.columnRefs ts)
    (Parser.columnRefs (ts.map upperToken)) := by
  induction hlen : ts.length using Nat.strongRecOn generalizing ts with
  | ind len ih =>
      subst hlen
      rw [Parser.columnRefs.eq_def ts, Parser.columnRefs.eq_def (ts.map upperToken)]
      simp only [type_upper, columnRef_upper, ← List.map_tail]
      split
      · next hk =>
          have hlt : (Parser.columnRef ts).2.tail.length < ts.length := by
            have hle := Parser.columnRef_le ts
            have hlt : ts.tail.length < ts.length := Parser.tail_lt (by rw [hk]; decide)
            rw [List.length_tail]
            omega
          split
          · refine (ih _ hlt _ rfl).bind ?_
            rintro ⟨refs, ts₁⟩ _ rfl
            exact rfl
          · exact rfl
      · trivial

theorem parseJoin_upper : EndsAlike (Uppers (Option.map upperJoin)) (Parser.parseJoin ts)
    (Parser.parseJoin (ts.map upperToken)) := by
  simp only [Parser.parseJoin, type_upper, ← List.map_tail]
  split
  · refine (expect_upper ts.tail _ _).bind ?_
    rintro ts₁ _ rfl
    refine (identifier_upper ts₁ _ _).bind ?_
    rintro ⟨name, ts₂⟩ _ rfl
    refine (expect_upper ts₂ _ _).bind ?_
    rintro ts₃ _ rfl
    simp only [columnRef_upper, type_upper, ← List.map_tail]
    split
    · trivial
    · exact rfl
  · exact rfl

theorem selectList_upper : EndsAlike (Uppers (Prod.map id (List.map upperRef)))
    (Parser.selectList ts) (Parser.selectList (ts.map upperToken)) := by
  simp only [Parser.selectList, type_upper, ← List.map_tail]
  split
  · exact rfl
  · refine (columnRefs_upper ts).bind ?_
    rintro ⟨refs, ts₁⟩ _ rfl
    exact rfl

theorem parseSelect_upper : EndsAlike (Uppers upperStatement) (Parser.parseSelect ts)
    (Parser.parseSelect (ts.map upperToken)) := by
  rw [parseSelect_eq, parseSelect_eq, ← List.map_tail]
  refine (selectList_upper ts.tail).bind ?_
  rintro ⟨⟨all, refs⟩, ts₁⟩ _ rfl
  refine (expect_upper ts₁ _ _).bind ?_
  rintro ts₂ _ rfl
  refine (identifier_upper ts₂ _ _).bind ?_
  rintro ⟨name, ts₃⟩ _ rfl
  refine (parseJoin_upper ts₃).bind ?_
  rintro ⟨join, ts₄⟩ _ rfl
  simp only [optionalWhere_upper, skip_upper]
  exact rfl

/-- The statement read from tokens in upper case. -/
theorem parse_upper : EndsAlike (Uppers upperStatement) (Parser.parse ts)
    (Parser.parse (ts.map upperToken)) := by
  rw [Parser.parse, Parser.parse, type_upper]
  cases (Parser.current ts).type
  case kwCreate => exact parseCreateTable_upper ts
  case kwInsert => exact parseInsert_upper ts
  case kwSelect => exact parseSelect_upper ts
  all_goals trivial

end Parser

end FlexQL.Proofs
