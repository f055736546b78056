import FlexQL.Ref.Parser

/-!
# Statements as SQL text

A statement is written as a list of lexemes, and the lexemes as text, with a
space between two of them unless one hugs the other: `SELECT t.a, b FROM t
WHERE b = 'x'`. A literal stands in single quotes, with a backslash before
each quote and each backslash of it.
-/

namespace FlexQL.Spec

open Lib FlexQL.Ref

namespace Printer

/-! ## Lexemes -/

inductive Lexeme where
  /-- A keyword, an operator or punctuation. -/
  | fixed (type : TokenType)
  | name (word : Bytes)
  | number (n : Nat)
  | quoted (literal : Bytes)
  deriving DecidableEq, Repr

/-- The operators and the punctuation: `!=`, `<=`, `>=`, `<`, `>`, `=`, `(`, `)`, `,`, `.`, `*`. -/
def marks : List (Bytes × TokenType) :=
  [([33, 61], .opNe), ([60, 61], .opLe), ([62, 61], .opGe), ([60], .opLt), ([62], .opGt),
    ([61], .opEq), ([40], .lparen), ([41], .rparen), ([44], .comma), ([46], .dot), ([42], .star)]

def spelling (type : TokenType) : Bytes :=
  match (keywords ++ marks).find? fun p => p.2 = type with
  | some p => p.1
  | none => []

def escape : Bytes → Bytes
  | [] => []
  | c :: cs => if c = 39 ∨ c = 92 then 92 :: c :: escape cs else c :: escape cs

def Lexeme.text : Lexeme → Bytes
  | .fixed type => spelling type
  | .name word => word
  | .number n => Bytes.ofNat n
  | .quoted literal => 39 :: (escape literal ++ [39])

/-- The type and the value of the token a lexeme is read as. -/
def Lexeme.token : Lexeme → TokenType × Bytes
  | .fixed type => (type, spelling type)
  | .name word => (.identifier, word)
  | .number n => (.intLiteral, Bytes.ofNat n)
  | .quoted literal => (.stringLiteral, literal)

/-- No space is written between the two. -/
def hugs : Lexeme → Lexeme → Bool
  | .fixed .lparen, _ => true
  | .fixed .dot, _ => true
  | .fixed .kwVarchar, .fixed .lparen => true
  | .name _, .fixed .dot => true
  | _, .fixed .comma => true
  | _, .fixed .rparen => true
  | _, _ => false

def gap (a b : Lexeme) : Bytes := if hugs a b then [] else [32]

def render : List Lexeme → Bytes
  | [] => []
  | [a] => a.text
  | a :: b :: ls => a.text ++ gap a b ++ render (b :: ls)

/-! ## Tokens -/

/-- A token as text: a string in single quotes, any other as its value. -/
def tokenText (t : Token) : Bytes :=
  if t.type = .stringLiteral then 39 :: (escape t.value ++ [39]) else t.value

/-- The tokens as text, with a space between two of them. -/
def reprint (ts : List Token) : Bytes := List.intercalate [32] (ts.map tokenText)

/-! ## Statements -/

/-- The items of a list, with a comma between them. -/
def listed {α : Type} (f : α → List Lexeme) : List α → List Lexeme
  | [] => []
  | [a] => f a
  | a :: b :: as => f a ++ .fixed .comma :: listed f (b :: as)

def opType : AstCmpOp → TokenType
  | .eq => .opEq
  | .ne => .opNe
  | .lt => .opLt
  | .gt => .opGt
  | .le => .opLe
  | .ge => .opGe

def columnRef (c : ColumnRef) : List Lexeme :=
  if c.table = [] then [.name c.column] else [.name c.table, .fixed .dot, .name c.column]

def columnType (c : AstColumnDef) : List Lexeme :=
  match keywords.lookup c.typeName with
  | some .kwVarchar =>
      [.fixed .kwVarchar, .fixed .lparen, .number c.varcharLen.toNat, .fixed .rparen]
  | some type => [.fixed type]
  | none => []

def columnDef (c : AstColumnDef) : List Lexeme := .name c.name :: columnType c

def tuple (vs : List Bytes) : List Lexeme :=
  .fixed .lparen :: (listed (fun v => [.quoted v]) vs ++ [.fixed .rparen])

def selectList (stmt : SelectStmt) : List Lexeme :=
  if stmt.selectAll then [.fixed .star] else listed columnRef stmt.columns

def joinClause : Option JoinClause → List Lexeme
  | none => []
  | some j => [.fixed .kwInner, .fixed .kwJoin, .name j.rightTable, .fixed .kwOn] ++
      columnRef j.leftCol ++ .fixed (opType j.op) :: columnRef j.rightCol

def whereClause : Option WhereClause → List Lexeme
  | none => []
  | some w => .fixed .kwWhere :: (columnRef w.column ++ [.fixed (opType w.op), .quoted w.literal])

def statement : Statement → List Lexeme
  | .createTable stmt =>
      [.fixed .kwCreate, .fixed .kwTable, .name stmt.tableName, .fixed .lparen] ++
        listed columnDef stmt.columns ++ [.fixed .rparen]
  | .insert stmt => [.fixed .kwInsert, .fixed .kwInto, .name stmt.tableName, .fixed .kwValues] ++
      listed tuple stmt.batchValues
  | .select stmt => .fixed .kwSelect :: selectList stmt ++
      [.fixed .kwFrom, .name stmt.tableName] ++ joinClause stmt.join ++ whereClause stmt.whereClause

/-- The statement as SQL. -/
def print (stmt : Statement) : Bytes := render (statement stmt)

example : print (.createTable ⟨Bytes.lit "t", [⟨Bytes.lit "a", Bytes.lit "INT", defaultVarcharMax⟩,
    ⟨Bytes.lit "b", Bytes.lit "VARCHAR", 5⟩]⟩) =
      Bytes.lit "CREATE TABLE t (a INT, b VARCHAR(5))" := by
  decide +kernel

/-! ## The language -/

/-- A word that the lexer takes for a name. -/
structure Identifier (w : Bytes) : Prop where
  head : w.head?.any (fun c => Bytes.isAlpha c || c = 95) = true
  word : w.all Lexer.isWordChar = true
  free : keywords.lookup (Bytes.toUpper w) = none

/-- An optionally qualified column. -/
structure IsColumnRef (c : ColumnRef) : Prop where
  table : c.table = [] ∨ Identifier c.table
  column : Identifier c.column

/-- `VARCHAR` of some length, or a type without one. -/
def IsType (c : AstColumnDef) : Prop :=
  c.typeName = Bytes.lit "VARCHAR" ∨
    c.typeName ∈ [Bytes.lit "INT", Bytes.lit "DECIMAL", Bytes.lit "DATETIME"] ∧
      c.varcharLen = defaultVarcharMax

/-- A star, or a list of columns that is not empty. -/
def IsSelectList (selectAll : Bool) (columns : List ColumnRef) : Prop :=
  if selectAll then columns = [] else columns ≠ [] ∧ ∀ c ∈ columns, IsColumnRef c

/-- `INNER JOIN … ON c = d` -/
structure IsJoin (j : JoinClause) : Prop where
  table : Identifier j.rightTable
  left : IsColumnRef j.leftCol
  right : IsColumnRef j.rightCol
  op : j.op = .eq

/-- The statements of the language. -/
def InLanguage : Statement → Prop
  | .createTable stmt => Identifier stmt.tableName ∧ stmt.columns ≠ [] ∧
      ∀ c ∈ stmt.columns, Identifier c.name ∧ IsType c
  | .insert stmt => Identifier stmt.tableName ∧ stmt.batchValues ≠ []
  | .select stmt => Identifier stmt.tableName ∧ IsSelectList stmt.selectAll stmt.columns ∧
      (∀ j ∈ stmt.join, IsJoin j) ∧ ∀ w ∈ stmt.whereClause, IsColumnRef w.column

end Printer

end FlexQL.Spec
