import FlexQL.Lib.Outcome
import FlexQL.Ref.Common
import FlexQL.Ref.Lexer

/-!
# Statements and the parser (`ast.h`, `parser.h`, `parser.cpp`)

A recursive descent parser over the tokens that are left. Past the last token
it sees an end-of-input token without a position. A parse fails with a
message, or leaves the parser with the exception `std::stoi` throws for the
length of a `VARCHAR`.
-/

namespace FlexQL.Ref

open Lib

/-! ## The syntax tree -/

/-- `AstCmpOp` -/
inductive AstCmpOp where
  | eq
  | ne
  | lt
  | gt
  | le
  | ge
  deriving DecidableEq, Repr

/-- `ColumnRef`; an empty table name is no qualifier. -/
structure ColumnRef where
  table : Bytes
  column : Bytes
  deriving DecidableEq, Repr

/-- `WhereClause` -/
structure WhereClause where
  column : ColumnRef
  op : AstCmpOp
  literal : Bytes
  deriving DecidableEq, Repr

/-- `JoinClause` -/
structure JoinClause where
  rightTable : Bytes
  leftCol : ColumnRef
  rightCol : ColumnRef
  op : AstCmpOp
  deriving DecidableEq, Repr

/-- `AstColumnDef` -/
structure AstColumnDef where
  name : Bytes
  typeName : Bytes
  varcharLen : UInt16
  deriving DecidableEq, Repr

/-- `CreateTableStmt` -/
structure CreateTableStmt where
  tableName : Bytes
  columns : List AstColumnDef
  deriving DecidableEq, Repr

/-- `InsertStmt` -/
structure InsertStmt where
  tableName : Bytes
  batchValues : List (List Bytes)
  deriving DecidableEq, Repr

/-- `SelectStmt`; the flags `has_where` and `has_join` say whether the clause
is there. -/
structure SelectStmt where
  tableName : Bytes
  columns : List ColumnRef
  selectAll : Bool
  whereClause : Option WhereClause
  join : Option JoinClause
  deriving DecidableEq, Repr

/-- `Statement` -/
inductive Statement where
  | createTable (stmt : CreateTableStmt)
  | insert (stmt : InsertStmt)
  | select (stmt : SelectStmt)
  deriving DecidableEq, Repr

/-! ## The parser -/

/-- How a parse ends without a statement. -/
inductive ParseError where
  /-- `nullptr`, with the message left in `error_`. -/
  | message (text : Bytes)
  /-- An exception. -/
  | thrown
  deriving DecidableEq, Repr

/-- The result of a step of the parser. It reads something and leaves the
tokens behind it. -/
abbrev ParseResult := Except ParseError

namespace Parser

/-- The static token `eof`. -/
def eof : Token := ⟨.endOfInput, [], 0, 0⟩

/-- `current` -/
def current (ts : List Token) : Token := ts.headD eof

/-- A failure with a message. -/
def fail {α : Type} (text : Bytes) : ParseResult α := .error (.message text)

/-- `expect` -/
def expect (type : TokenType) (context : Bytes) (ts : List Token) :
    ParseResult (List Token) :=
  if (current ts).type = type then .ok ts.tail
  else fail (Bytes.lit "Expected " ++ context ++ Bytes.lit " at line " ++
    Bytes.ofNat (current ts).line ++ Bytes.lit " col " ++ Bytes.ofNat (current ts).col ++
    Bytes.lit ", got '" ++ (current ts).value ++ Bytes.lit "'")

/-- `match`, where the answer does not matter. -/
def skip (type : TokenType) (ts : List Token) : List Token :=
  if (current ts).type = type then ts.tail else ts

/-- An identifier, or the failure with `text`. -/
def identifier (text : Bytes) (ts : List Token) : ParseResult (Bytes × List Token) :=
  if (current ts).type = .identifier then .ok ((current ts).value, ts.tail) else fail text

/-! `CREATE TABLE` -/

/-- The type of a column. -/
def columnType (name : Bytes) (ts : List Token) : ParseResult (Bytes × List Token) :=
  match (current ts).type with
  | .kwInt => .ok (Bytes.lit "INT", ts.tail)
  | .kwDecimal => .ok (Bytes.lit "DECIMAL", ts.tail)
  | .kwVarchar => .ok (Bytes.lit "VARCHAR", ts.tail)
  | .kwDatetime => .ok (Bytes.lit "DATETIME", ts.tail)
  | _ => fail (Bytes.lit "Expected type for column '" ++ name ++ Bytes.lit "', got '" ++
      (current ts).value ++ Bytes.lit "'")

/-- The optional length of a `VARCHAR`; an `int` cut to 16 bits. -/
def varcharLength (typeName : Bytes) (ts : List Token) : ParseResult (UInt16 × List Token) :=
  if typeName = Bytes.lit "VARCHAR" ∧ (current ts).type = .lparen then
    if (current ts.tail).type ≠ .intLiteral then fail (Bytes.lit "Expected VARCHAR length")
    else match stoi (current ts.tail).value with
      | none => .error .thrown
      | some n => do
          let ts ← expect .rparen (Bytes.lit "')'") ts.tail.tail
          .ok (n.toUInt32.toUInt16, ts)
  else .ok (defaultVarcharMax, ts)

/-- The body of the loop over the columns. -/
def columnDef (ts : List Token) : ParseResult (AstColumnDef × List Token) := do
  let (name, ts) ← identifier
    (Bytes.lit "Expected column name, got '" ++ (current ts).value ++ Bytes.lit "'") ts
  let (typeName, ts) ← columnType name ts
  let (len, ts) ← varcharLength typeName ts
  .ok (⟨name, typeName, len⟩, ts)

/-! The loops end because every round takes a token. -/

theorem tail_lt {ts : List Token} (h : (current ts).type ≠ .endOfInput) :
    ts.tail.length < ts.length := by
  cases ts with
  | nil => exact absurd rfl h
  | cons t ts => exact Nat.lt_succ_self _

theorem expect_ok {type : TokenType} {context : Bytes} {ts ts' : List Token}
    (h : expect type context ts = .ok ts') : (current ts).type = type ∧ ts' = ts.tail := by
  rw [expect] at h
  split at h
  · next ht => exact ⟨ht, (Except.ok.inj h).symm⟩
  · exact absurd h (by simp [fail])

theorem identifier_ok {text name : Bytes} {ts ts' : List Token}
    (h : identifier text ts = .ok (name, ts')) :
    (current ts).type = .identifier ∧ name = (current ts).value ∧ ts' = ts.tail := by
  rw [identifier] at h
  split at h
  · next ht =>
      obtain ⟨rfl, rfl⟩ := Prod.mk.inj (Except.ok.inj h)
      exact ⟨ht, rfl, rfl⟩
  · exact absurd h (by simp [fail])

theorem columnType_ok {name typeName : Bytes} {ts ts' : List Token}
    (h : columnType name ts = .ok (typeName, ts')) : ts' = ts.tail := by
  rw [columnType] at h
  split at h
  all_goals first
    | exact (Prod.mk.inj (Except.ok.inj h)).2.symm
    | exact absurd h (by simp [fail])

theorem varcharLength_suffix {typeName : Bytes} {len : UInt16} {ts ts' : List Token}
    (h : varcharLength typeName ts = .ok (len, ts')) : ts' <:+ ts := by
  rw [varcharLength] at h
  split at h
  · split at h
    · exact absurd h (by simp [fail])
    · split at h
      · exact absurd h (by simp)
      · obtain ⟨ts₁, hexp, h⟩ := Outcome.bind_eq_ok.mp h
        obtain ⟨_, rfl⟩ := expect_ok hexp
        obtain ⟨_, rfl⟩ := Prod.mk.inj (Except.ok.inj h)
        exact ((List.tail_suffix _).trans (List.tail_suffix _)).trans (List.tail_suffix _)
  · obtain ⟨_, rfl⟩ := Prod.mk.inj (Except.ok.inj h)
    exact List.suffix_refl _

/-- The name of a column is its first token. -/
theorem columnDef_ok {ts ts' : List Token} {col : AstColumnDef}
    (h : columnDef ts = .ok (col, ts')) :
    (current ts).type = .identifier ∧ col.name = (current ts).value ∧ ts' <:+ ts.tail := by
  obtain ⟨⟨name, ts₁⟩, h₁, hk₁⟩ := Outcome.bind_eq_ok.mp h
  obtain ⟨⟨typeName, ts₂⟩, h₂, hk₂⟩ := Outcome.bind_eq_ok.mp hk₁
  obtain ⟨⟨len, ts₃⟩, h₃, hk₃⟩ := Outcome.bind_eq_ok.mp hk₂
  obtain ⟨rfl, rfl⟩ := Prod.mk.inj (Except.ok.inj hk₃)
  obtain ⟨hid, rfl, rfl⟩ := identifier_ok h₁
  obtain rfl := columnType_ok h₂
  exact ⟨hid, rfl, (varcharLength_suffix h₃).trans (List.tail_suffix _)⟩

theorem columnDef_lt {ts ts' : List Token} {col : AstColumnDef}
    (h : columnDef ts = .ok (col, ts')) : ts'.length < ts.length := by
  obtain ⟨hid, _, hsuf⟩ := columnDef_ok h
  exact Nat.lt_of_le_of_lt hsuf.length_le (tail_lt (by rw [hid]; decide))

/-- The loop over the columns. -/
def columnDefs (ts : List Token) : ParseResult (List AstColumnDef × List Token) :=
  if (current ts).type = .rparen ∨ (current ts).type = .endOfInput then .ok ([], ts)
  else
    match h : columnDef ts with
    | .error e => .error e
    | .ok (col, ts') =>
        if (current ts').type = .comma then
          have : ts'.length < ts.length := columnDef_lt h
          do
            let (cols, ts'') ← columnDefs ts'.tail
            .ok (col :: cols, ts'')
        else .ok ([col], ts')
termination_by ts.length
decreasing_by
  rw [List.length_tail]
  omega

/-- `parse_create_table` -/
def parseCreateTable (ts : List Token) : ParseResult (Statement × List Token) := do
  let ts := ts.tail
  let ts ← expect .kwTable (Bytes.lit "TABLE") ts
  let (tableName, ts) ← identifier (Bytes.lit "Expected table name after CREATE TABLE") ts
  let ts ← expect .lparen (Bytes.lit "'('") ts
  let (columns, ts) ← columnDefs ts
  let ts ← expect .rparen (Bytes.lit "')'") ts
  .ok (.createTable ⟨tableName, columns⟩, skip .semicolon ts)

/-! `INSERT` -/

/-- The loop over the values of a tuple: any token but `)` is a value. -/
def values : List Token → List Bytes × List Token
  | [] => ([], [])
  | t :: ts =>
      if t.type = .rparen ∨ t.type = .endOfInput then ([], t :: ts)
      else match ts with
        | [] => ([t.value], [])
        | u :: us =>
            if u.type = .comma then
              let r := values us
              (t.value :: r.1, r.2)
            else ([t.value], u :: us)

theorem values_le : ∀ ts : List Token, (values ts).2.length ≤ ts.length
  | [] => Nat.le_refl _
  | [t] => by
      rw [values]
      split <;> simp
  | t :: u :: us => by
      have := values_le us
      rw [values]
      split
      · exact Nat.le_refl _
      · split
        · simp only [List.length_cons]
          omega
        · simp

/-- The body of the loop over the tuples. -/
def tuple (ts : List Token) : ParseResult (List Bytes × List Token) := do
  let ts ← expect .lparen (Bytes.lit "'('") ts
  let (rowValues, ts) := values ts
  let ts ← expect .rparen (Bytes.lit "')'") ts
  .ok (rowValues, ts)

theorem tuple_lt {ts ts' : List Token} {row : List Bytes} (h : tuple ts = .ok (row, ts')) :
    ts'.length < ts.length := by
  obtain ⟨ts₁, h₁, hk₁⟩ := Outcome.bind_eq_ok.mp h
  obtain ⟨ts₂, h₂, hk₂⟩ := Outcome.bind_eq_ok.mp hk₁
  obtain ⟨_, rfl⟩ := Prod.mk.inj (Except.ok.inj hk₂)
  obtain ⟨hparen, rfl⟩ := expect_ok h₁
  obtain ⟨_, rfl⟩ := expect_ok h₂
  have hlt : ts.tail.length < ts.length := tail_lt (by rw [hparen]; decide)
  have hle := values_le ts.tail
  simp only [List.length_tail] at hle hlt ⊢
  omega

/-- The loop over the tuples. -/
def tuples (ts : List Token) : ParseResult (List (List Bytes) × List Token) :=
  match h : tuple ts with
  | .error e => .error e
  | .ok (row, ts') =>
      if (current ts').type = .comma then
        have : ts'.length < ts.length := tuple_lt h
        do
          let (rows, ts'') ← tuples ts'.tail
          .ok (row :: rows, ts'')
      else .ok ([row], ts')
termination_by ts.length
decreasing_by
  rw [List.length_tail]
  omega

/-- `parse_insert` -/
def parseInsert (ts : List Token) : ParseResult (Statement × List Token) := do
  let ts := ts.tail
  let ts ← expect .kwInto (Bytes.lit "INTO") ts
  let (tableName, ts) ← identifier (Bytes.lit "Expected table name after INSERT INTO") ts
  let ts ← expect .kwValues (Bytes.lit "VALUES") ts
  let (batchValues, ts) ← tuples ts
  .ok (.insert ⟨tableName, batchValues⟩, skip .semicolon ts)

/-! `SELECT` -/

/-- `parse_column_ref`; any token is taken for a name. -/
def columnRef (ts : List Token) : ColumnRef × List Token :=
  let column := (current ts).value
  let ts := ts.tail
  if (current ts).type = .dot then (⟨column, (current ts.tail).value⟩, ts.tail.tail)
  else (⟨[], column⟩, ts)

/-- `parse_cmp_op`; a token that is no operator is left and counts as `=`. -/
def cmpOp (ts : List Token) : AstCmpOp × List Token :=
  match (current ts).type with
  | .opEq => (.eq, ts.tail)
  | .opNe => (.ne, ts.tail)
  | .opLt => (.lt, ts.tail)
  | .opGt => (.gt, ts.tail)
  | .opLe => (.le, ts.tail)
  | .opGe => (.ge, ts.tail)
  | _ => (.eq, ts)

/-- `parse_where` -/
def parseWhere (ts : List Token) : WhereClause × List Token :=
  let (column, ts) := columnRef ts
  let (op, ts) := cmpOp ts
  (⟨column, op, (current ts).value⟩, ts.tail)

theorem columnRef_le (ts : List Token) : (columnRef ts).2.length ≤ ts.tail.length := by
  rw [columnRef]
  split
  · simp only [List.length_tail]
    omega
  · exact Nat.le_refl _

/-- The loop over the selected columns. -/
def columnRefs (ts : List Token) : ParseResult (List ColumnRef × List Token) :=
  if h : (current ts).type = .identifier then
    if (current (columnRef ts).2).type = .comma then
      have : ts.tail.length < ts.length := tail_lt (by rw [h]; decide)
      have : (columnRef ts).2.length ≤ ts.tail.length := columnRef_le ts
      do
        let (refs, ts') ← columnRefs (columnRef ts).2.tail
        .ok ((columnRef ts).1 :: refs, ts')
    else .ok ([(columnRef ts).1], (columnRef ts).2)
  else fail (Bytes.lit "Expected column name or *, got '" ++ (current ts).value ++ Bytes.lit "'")
termination_by ts.length
decreasing_by
  rw [List.length_tail]
  omega

/-- The optional `INNER JOIN`. -/
def parseJoin (ts : List Token) : ParseResult (Option JoinClause × List Token) :=
  if (current ts).type = .kwInner then do
    let ts ← expect .kwJoin (Bytes.lit "JOIN") ts.tail
    let (rightTable, ts) ← identifier (Bytes.lit "Expected table name after INNER JOIN") ts
    let ts ← expect .kwOn (Bytes.lit "ON") ts
    let (leftCol, ts) := columnRef ts
    if (current ts).type ≠ .opEq then fail (Bytes.lit "Expected '=' in JOIN condition")
    else
      let (rightCol, ts) := columnRef ts.tail
      .ok (some ⟨rightTable, leftCol, rightCol, .eq⟩, ts)
  else .ok (none, ts)

/-- A star, or the selected columns. -/
def selectList (ts : List Token) : ParseResult ((Bool × List ColumnRef) × List Token) :=
  if (current ts).type = .star then .ok ((true, []), ts.tail)
  else do
    let (columns, ts) ← columnRefs ts
    .ok ((false, columns), ts)

/-- `parse_select` -/
def parseSelect (ts : List Token) : ParseResult (Statement × List Token) := do
  let ts := ts.tail
  let ((selectAll, columns), ts) ← selectList ts
  let ts ← expect .kwFrom (Bytes.lit "FROM") ts
  let (tableName, ts) ← identifier (Bytes.lit "Expected table name after FROM") ts
  let (join, ts) ← parseJoin ts
  let (whereClause, ts) :=
    if (current ts).type = .kwWhere then
      let (w, ts) := parseWhere ts.tail
      (some w, ts)
    else (none, ts)
  .ok (.select ⟨tableName, columns, selectAll, whereClause, join⟩, skip .semicolon ts)

/-- `parse` -/
def parse (ts : List Token) : ParseResult (Statement × List Token) :=
  match (current ts).type with
  | .kwCreate => parseCreateTable ts
  | .kwInsert => parseInsert ts
  | .kwSelect => parseSelect ts
  | _ => fail (Bytes.lit "Unexpected token '" ++ (current ts).value ++ Bytes.lit "' at line " ++
      Bytes.ofNat (current ts).line ++ Bytes.lit ". Expected CREATE, INSERT, or SELECT.")

end Parser

/-- `parse_sql`; the answer is a statement or the error. -/
def parseSql (sql : Bytes) : Outcome (Except Bytes Statement) :=
  let (tokens, error) := Lexer.tokenize sql
  if !error.isEmpty then .ok (.error error)
  else match Parser.parse tokens with
    | .ok (stmt, _) => .ok (.ok stmt)
    | .error (.message text) => .ok (.error text)
    | .error .thrown => .error .thrown

end FlexQL.Ref
