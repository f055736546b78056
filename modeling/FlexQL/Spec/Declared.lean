import FlexQL.Ref.Snapshot
import FlexQL.Spec.Grammar
import FlexQL.Spec.Reach

/-!
# What a declaration promises

`CREATE TABLE` turns a list of declarations into a list of columns. A row then
has room for each of them, one behind the other; a star stands for all of
them, each under its own name; the first is the primary key; and a `VARCHAR`
keeps the length it was declared with.
-/

namespace FlexQL.Spec

open Lib FlexQL.Ref

/-! ## Columns -/

/-- The column a declaration stands for, if its type is known. -/
def declaredColumn (c : AstColumnDef) : Option ColumnDef :=
  (Executor.columnDataType c.typeName).map fun type =>
    ⟨Bytes.toUpper c.name, type,
      if type ≠ .varchar then 0 else if 0 < c.varcharLen then c.varcharLen else defaultVarcharMax⟩

def declared (cols : List AstColumnDef) : Option (List ColumnDef) := cols.mapM declaredColumn

/-- Offsets and sizes are the sums they stand for, so that no two columns
share a byte and all of them lie in the row. -/
structure ExactLayout (s : Schema) : Prop where
  offset : ∀ i < s.columns.length, (s.columnOffset i).toNat = extent (s.columns.take i)
  rowSize : s.rowSize.toNat = extent s.columns
  total : s.totalRowSize.toNat = extent s.columns + 9
  apart : ∀ i j c d, i < j → s.columns[i]? = some c → s.columns[j]? = some d →
    (s.columnOffset i).toNat + c.storageSize.toNat ≤ (s.columnOffset j).toNat
  inside : ∀ i c, s.columns[i]? = some c →
    (s.columnOffset i).toNat + c.storageSize.toNat + 9 ≤ s.totalRowSize.toNat

/-- `SELECT * FROM` the table -/
structure IsStar (name : Bytes) (stmt : SelectStmt) : Prop where
  all : Executor.selectsAll stmt = true
  table : Bytes.toUpper stmt.tableName = name
  join : stmt.join = none
  bare : stmt.whereClause = none

/-! ## The first column -/

/-- The first column is there. -/
def HasKey (s : Schema) : Prop := s.pkIndex < s.columns.length

instance (s : Schema) : Decidable (HasKey s) := inferInstanceAs (Decidable (_ < _))

/-- Every row that the table takes has a value at the place of the key. -/
structure KeyInRange (t : Table) : Prop where
  column : HasKey t.schema
  rows : ∀ row, t.schema.validateRow row = none → t.schema.pkIndex < row.length

/-- The schema that `execute_sql` hands to the constructor of a table, if it
comes to that. -/
def constructs (ex : Executor) (sql : Bytes) : Option Schema :=
  match parseSql sql with
  | .ok (.ok (.createTable stmt)) =>
      if (ex.tables.lookup (Bytes.toUpper stmt.tableName)).isSome then none
      else (Executor.buildSchema Schema.empty stmt.columns).toOption
  | _ => none

/-- A `CREATE TABLE` without columns, under a name that is free. -/
def CreatesEmpty (ex : Executor) (sql : Bytes) : Prop :=
  ∃ stmt, parseSql sql = .ok (.ok (.createTable stmt)) ∧ stmt.columns = [] ∧
    ex.tables.lookup (Bytes.toUpper stmt.tableName) = none

/-- What is left of a snapshot file where each of the next `n` tables begins, as
far as `load` gets. -/
def tableStarts (now : Int64) : Nat → Bytes → List Bytes
  | 0, _ => []
  | n + 1, s => s :: match Snapshot.loadTable now s with
      | .ok (.ok (_, s')) => tableStarts now n s'
      | _ => []

/-- The tables of a snapshot file that `load` gets to. -/
def tablesReached (now : Int64) (file : Bytes) : List Bytes :=
  match Snapshot.readHeader file with
  | .error _ => []
  | .ok ((_, n), s) => tableStarts now n s

/-- How many columns the table has by its count. -/
def columnCount (s : Bytes) : Option Nat :=
  ((Snapshot.readStr.andThen fun _ => Reader.uint 4) s).map (·.1)

/-! ## Lengths -/

open Grammar

/-- The tokens behind a column: the end of the list, or a comma and the columns
`after`. -/
def Continued (ts : List Token) (after : List AstColumnDef) (rest : List Token) : Prop :=
  (kind ts = .rparen ∧ after = [] ∧ rest = ts.tail) ∨
    (kind ts = .comma ∧ ColDefs .documented ts.tail after rest)

/-- A list of columns: `before`, then `name VARCHAR(literal)`, then `after`.
The literal may be any integer literal. -/
inductive VarcharList (name literal : Bytes) (after : List AstColumnDef) (rest : List Token) :
    List Token → List AstColumnDef → Prop where
  | here {ts len : List Token} : kind ts = .identifier → text ts = name →
      kind ts.tail = .kwVarchar → kind ts.tail.tail = .lparen → len = ts.tail.tail.tail →
      kind len = .intLiteral → text len = literal → kind len.tail = .rparen →
      Continued len.tail.tail after rest → VarcharList name literal after rest ts []
  | there {ts ts' : List Token} {c : AstColumnDef} {before : List AstColumnDef} :
      ColDef ts c ts' → kind ts' = .comma →
      VarcharList name literal after rest ts'.tail before →
      VarcharList name literal after rest ts (c :: before)

/-- The text of `CREATE TABLE table (before, name VARCHAR(literal), after)`. -/
structure DeclaresVarchar (sql table : Bytes) (before : List AstColumnDef) (name literal : Bytes)
    (after : List AstColumnDef) : Prop where
  lexes : (Lexer.tokenize sql).2 = []
  create : kind (Lexer.tokenize sql).1 = .kwCreate
  kwTable : kind (Lexer.tokenize sql).1.tail = .kwTable
  tableName : kind (Lexer.tokenize sql).1.tail.tail = .identifier
  named : text (Lexer.tokenize sql).1.tail.tail = table
  opens : kind (Lexer.tokenize sql).1.tail.tail.tail = .lparen
  list : ∃ rest, VarcharList name literal after rest
    (Lexer.tokenize sql).1.tail.tail.tail.tail before

/-- The column takes strings of up to `n` bytes and no others: in a row that is
accepted, any string can stand at its place that is not longer. -/
def Enforces (s : Schema) (i : Nat) (n : Int) : Prop :=
  ∀ row, s.validateRow row = none →
    ∀ str : Bytes, s.validateRow (row.set i (.varchar str)) = none ↔ (str.length : Int) ≤ n

end FlexQL.Spec
