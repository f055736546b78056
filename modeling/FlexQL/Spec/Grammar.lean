import FlexQL.Ref.Parser

/-!
# The grammar (`DesignDoc.md`, 10.1)

A nonterminal relates the tokens before it to what it denotes and to the
tokens behind it. The grammar comes in two strengths: as it is documented
(with the length of a `VARCHAR` and a last semicolon optional), and lax, with
what the parser takes besides: any token for a name or a literal in most
places, lists that are empty or end in a comma, and a `WHERE` without an
operator. Past the last token there is always one more `END_OF_INPUT`.

An optional part is there when the token it starts with is: a dot behind a
name, a parenthesis behind `VARCHAR`.
-/

namespace FlexQL.Spec

open Lib FlexQL.Ref

namespace Grammar

inductive Strength where
  | documented
  | lax
  deriving DecidableEq

abbrev kind (ts : List Token) : TokenType := (Parser.current ts).type

abbrev text (ts : List Token) : Bytes := (Parser.current ts).value

def IsLiteral (k : TokenType) : Prop := k = .intLiteral ∨ k = .floatLiteral ∨ k = .stringLiteral

/-- An identifier. -/
def Name (g : Strength) (k : TokenType) : Prop := k = .identifier ∨ g = .lax

/-- A literal of a `WHERE`. -/
def Operand (g : Strength) (k : TokenType) : Prop := IsLiteral k ∨ g = .lax

/-- A literal of a tuple. -/
def Element (g : Strength) (k : TokenType) : Prop :=
  IsLiteral k ∨ (g = .lax ∧ k ≠ .rparen ∧ k ≠ .endOfInput)

/-- `cmp_op` -/
def cmpOpOf : TokenType → Option AstCmpOp
  | .opEq => some .eq
  | .opNe => some .ne
  | .opLt => some .lt
  | .opGt => some .gt
  | .opLe => some .le
  | .opGe => some .ge
  | _ => none

/-- `type_name`, with the length it stands for. -/
inductive TypeName : List Token → Bytes → UInt16 → List Token → Prop where
  | int {ts : List Token} : kind ts = .kwInt →
      TypeName ts (Bytes.lit "INT") defaultVarcharMax ts.tail
  | decimal {ts : List Token} : kind ts = .kwDecimal →
      TypeName ts (Bytes.lit "DECIMAL") defaultVarcharMax ts.tail
  | datetime {ts : List Token} : kind ts = .kwDatetime →
      TypeName ts (Bytes.lit "DATETIME") defaultVarcharMax ts.tail
  | varchar {ts : List Token} : kind ts = .kwVarchar → kind ts.tail ≠ .lparen →
      TypeName ts (Bytes.lit "VARCHAR") defaultVarcharMax ts.tail
  | varcharOf {ts ts' : List Token} {n : Int32} : kind ts = .kwVarchar → kind ts.tail = .lparen →
      ts' = ts.tail.tail → kind ts' = .intLiteral → stoi (text ts') = some n →
      kind ts'.tail = .rparen →
      TypeName ts (Bytes.lit "VARCHAR") n.toUInt32.toUInt16 ts'.tail.tail

/-- `column_def` -/
structure ColDef (ts : List Token) (c : AstColumnDef) (rest : List Token) : Prop where
  name : kind ts = .identifier
  named : c.name = text ts
  type : TypeName ts.tail c.typeName c.varcharLen rest

/-- `column_def (',' column_def)* ')'` -/
inductive ColDefs (g : Strength) : List Token → List AstColumnDef → List Token → Prop where
  | none {ts : List Token} : g = .lax → kind ts = .rparen → ColDefs g ts [] ts.tail
  | last {ts ts' : List Token} {c : AstColumnDef} : ColDef ts c ts' → kind ts' = .rparen →
      ColDefs g ts [c] ts'.tail
  | more {ts ts' rest : List Token} {c : AstColumnDef} {cs : List AstColumnDef} :
      ColDef ts c ts' → kind ts' = .comma → ColDefs g ts'.tail cs rest →
      ColDefs g ts (c :: cs) rest

/-- `literal (',' literal)* ')'` -/
inductive Elements (g : Strength) : List Token → List Bytes → List Token → Prop where
  | none {ts : List Token} : g = .lax → kind ts = .rparen → Elements g ts [] ts.tail
  | last {ts : List Token} : Element g (kind ts) → kind ts.tail = .rparen →
      Elements g ts [text ts] ts.tail.tail
  | more {ts rest : List Token} {vs : List Bytes} : Element g (kind ts) →
      kind ts.tail = .comma → Elements g ts.tail.tail vs rest → Elements g ts (text ts :: vs) rest

/-- `value_list (',' value_list)*` -/
inductive Tuples (g : Strength) : List Token → List (List Bytes) → List Token → Prop where
  | last {ts rest : List Token} {vs : List Bytes} : kind ts = .lparen →
      Elements g ts.tail vs rest → Tuples g ts [vs] rest
  | more {ts ts' rest : List Token} {vs : List Bytes} {rows : List (List Bytes)} :
      kind ts = .lparen → Elements g ts.tail vs ts' → kind ts' = .comma →
      Tuples g ts'.tail rows rest → Tuples g ts (vs :: rows) rest

/-- `column_ref` -/
inductive ColRef (g : Strength) : List Token → ColumnRef → List Token → Prop where
  | bare {ts : List Token} : Name g (kind ts) → kind ts.tail ≠ .dot →
      ColRef g ts ⟨[], text ts⟩ ts.tail
  | qualified {ts ts' : List Token} : Name g (kind ts) → kind ts.tail = .dot →
      ts' = ts.tail.tail → Name g (kind ts') → ColRef g ts ⟨text ts, text ts'⟩ ts'.tail

/-- `column_ref (',' column_ref)*`; the first token is a name to the parser too. -/
inductive ColRefs (g : Strength) : List Token → List ColumnRef → List Token → Prop where
  | last {ts rest : List Token} {c : ColumnRef} : kind ts = .identifier → ColRef g ts c rest →
      ColRefs g ts [c] rest
  | more {ts ts' rest : List Token} {c : ColumnRef} {cs : List ColumnRef} :
      kind ts = .identifier → ColRef g ts c ts' → kind ts' = .comma →
      ColRefs g ts'.tail cs rest → ColRefs g ts (c :: cs) rest

/-- `select_list`, as the two fields of the statement. -/
inductive SelectList (g : Strength) : List Token → Bool → List ColumnRef → List Token → Prop where
  | star {ts : List Token} : kind ts = .star → SelectList g ts true [] ts.tail
  | refs {ts rest : List Token} {cs : List ColumnRef} : ColRefs g ts cs rest →
      SelectList g ts false cs rest

/-- `[join_clause]` -/
inductive Join (g : Strength) : List Token → Option JoinClause → List Token → Prop where
  | none {ts : List Token} : Join g ts .none ts
  | inner {ts name on left right rest : List Token} {c d : ColumnRef} {op : AstCmpOp} :
      kind ts = .kwInner → kind ts.tail = .kwJoin →
      name = ts.tail.tail → kind name = .identifier → on = name.tail → kind on = .kwOn →
      left = on.tail → ColRef g left c right → cmpOpOf (kind right) = some op →
      ColRef g right.tail d rest → Join g ts (some ⟨text name, c, d, op⟩) rest

/-- `[where_clause]` -/
inductive Where (g : Strength) : List Token → Option WhereClause → List Token → Prop where
  | none {ts : List Token} : Where g ts .none ts
  | cmp {ts ts' : List Token} {c : ColumnRef} {op : AstCmpOp} : kind ts = .kwWhere →
      ColRef g ts.tail c ts' → cmpOpOf (kind ts') = some op → Operand g (kind ts'.tail) →
      Where g ts (some ⟨c, op, text ts'.tail⟩) ts'.tail.tail
  | bare {ts ts' : List Token} {c : ColumnRef} : g = .lax → kind ts = .kwWhere →
      ColRef g ts.tail c ts' → cmpOpOf (kind ts') = .none →
      Where g ts (some ⟨c, .eq, text ts'⟩) ts'.tail

/-- `statement`, without a semicolon. -/
inductive Stmt (g : Strength) : List Token → Statement → List Token → Prop where
  | create {ts name rest : List Token} {cols : List AstColumnDef} :
      kind ts = .kwCreate → kind ts.tail = .kwTable → name = ts.tail.tail →
      kind name = .identifier → kind name.tail = .lparen → ColDefs g name.tail.tail cols rest →
      Stmt g ts (.createTable ⟨text name, cols⟩) rest
  | insert {ts name rest : List Token} {rows : List (List Bytes)} :
      kind ts = .kwInsert → kind ts.tail = .kwInto → name = ts.tail.tail →
      kind name = .identifier → kind name.tail = .kwValues → Tuples g name.tail.tail rows rest →
      Stmt g ts (.insert ⟨text name, rows⟩) rest
  | select {ts ts₁ ts₂ rest : List Token} {all : Bool} {cols : List ColumnRef}
      {join : Option JoinClause} {w : Option WhereClause} :
      kind ts = .kwSelect → SelectList g ts.tail all cols ts₁ → kind ts₁ = .kwFrom →
      kind ts₁.tail = .identifier → Join g ts₁.tail.tail join ts₂ → Where g ts₂ w rest →
      Stmt g ts (.select ⟨text ts₁.tail, cols, all, w, join⟩) rest

/-- A statement, with or without a semicolon. -/
def Sentence (g : Strength) (ts : List Token) (stmt : Statement) (rest : List Token) : Prop :=
  ∃ ts', Stmt g ts stmt ts' ∧ (rest = ts' ∨ (kind ts' = .semicolon ∧ rest = ts'.tail))

/-- The token with which a statement would go on. -/
def continues : Statement → TokenType → Bool
  | .createTable _, _ => false
  | .insert _, k => k = .comma
  | .select stmt, k =>
      stmt.whereClause.isNone && (k = .kwWhere || stmt.join.isNone && k = .kwInner)

/-- A statement that does not go on, with its semicolon if there is one. -/
def Reading (g : Strength) (ts : List Token) (stmt : Statement) (rest : List Token) : Prop :=
  ∃ ts', Stmt g ts stmt ts' ∧ continues stmt (kind ts') = false ∧
    rest = Parser.skip .semicolon ts'

end Grammar

end FlexQL.Spec
