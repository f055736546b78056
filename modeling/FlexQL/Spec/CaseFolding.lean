import FlexQL.Spec.Transparency

/-!
# Spellings of a statement

Keywords and names can be written in any case, literals cannot. Two texts are
variants of each other if they differ in the case of letters only, and not in
a literal.
-/

namespace FlexQL.Spec

open Lib FlexQL.Ref

/-- The literals of a statement, tuple by tuple. -/
def literals : Statement → List (List Bytes)
  | .createTable _ => []
  | .insert stmt => stmt.batchValues
  | .select stmt => [(stmt.whereClause.map (·.literal)).toList]

/-- The column with its name in upper case. -/
def upperColumn (c : AstColumnDef) : AstColumnDef := { c with name := Bytes.toUpper c.name }

/-- The statement with its names in upper case. Literals stay as they are. -/
def upperNames : Statement → Statement
  | .createTable stmt => .createTable ⟨Bytes.toUpper stmt.tableName, stmt.columns.map upperColumn⟩
  | .insert stmt => .insert ⟨Bytes.toUpper stmt.tableName, stmt.batchValues⟩
  | .select stmt => .select (upperSelect stmt)

/-- Two texts that differ in the case of letters only, and if they are
statements not in a literal of them. -/
structure CaseVariant (a b : Bytes) : Prop where
  letters : Bytes.toUpper a = Bytes.toUpper b
  literals : ∀ stmt stmt', parseSql a = .ok (.ok stmt) → parseSql b = .ok (.ok stmt') →
    literals stmt = literals stmt'

/-- Two answers that differ in the text of an error at most. -/
structure SameReply (r r' : QueryResult) : Prop where
  success : r.success = r'.success
  columnNames : r.columnNames = r'.columnNames
  rows : r.rows = r'.rows
  message : r.message = r'.message

end FlexQL.Spec
