import FlexQL.Lib.Actions
import FlexQL.Spec.Catalog
import FlexQL.Spec.Grammar
import FlexQL.Spec.Reach
import FlexQL.Spec.Transparency

/-!
# The rows that statements store, and when

An `INSERT` stores its tuples up to the first that is refused. A birth is a
row that was stored, with its table and the time; a chronicle keeps the births
next to an executor, which knows nothing of them. `Harmless` are the texts
that can be run in any state.
-/

namespace FlexQL.Spec

open Lib FlexQL.Ref

/-- A row that was stored. -/
structure Birth where
  table : Bytes
  row : Row
  time : Int64
  deriving DecidableEq, Repr

/-- The rows of a table that have not outlived the default lifetime at `now`. -/
def freshRows (births : List Birth) (now : Int64) (name : Bytes) : List Row :=
  (births.filter fun b => b.table = name ∧ WithinTtl defaultTtlSeconds b.time now).map (·.row)

/-! ## Texts -/

/-- The length of every `VARCHAR` is an `int`. -/
def LengthsFit (ts : List Token) : Prop :=
  ∀ rest ∈ ts.tails, Grammar.kind rest = .kwVarchar → Grammar.kind rest.tail = .lparen →
    Grammar.kind rest.tail.tail = .intLiteral → (stoi (Parser.current rest.tail.tail).value).isSome

instance (ts : List Token) : Decidable (LengthsFit ts) :=
  inferInstanceAs (Decidable (∀ rest ∈ ts.tails, _))

/-- A table created by the text has a column. -/
def HasColumn (sql : Bytes) : Prop :=
  ∀ stmt, parseSql sql = .ok (.ok (.createTable stmt)) → stmt.columns ≠ []

instance (sql : Bytes) : Decidable (HasColumn sql) :=
  match h : parseSql sql with
  | .ok (.ok (.createTable stmt)) => decidable_of_iff (stmt.columns ≠ []) (by simp [HasColumn, h])
  | .ok (.ok (.insert stmt)) => .isTrue (by simp [HasColumn, h])
  | .ok (.ok (.select stmt)) => .isTrue (by simp [HasColumn, h])
  | .ok (.error e) => .isTrue (by simp [HasColumn, h])
  | .error e => .isTrue (by simp [HasColumn, h])

/-- A text that runs through in any state: a `CREATE` has lengths that are
numbers of the machine, at least one column, and rows that fit. -/
structure Harmless (sql : Bytes) : Prop where
  lengths : Grammar.kind (Lexer.tokenize sql).1 = .kwCreate → LengthsFit (Lexer.tokenize sql).1
  columns : HasColumn sql
  fits : FitsSql sql

instance (sql : Bytes) : Decidable (Harmless sql) :=
  decidable_of_iff ((Grammar.kind (Lexer.tokenize sql).1 = .kwCreate →
      LengthsFit (Lexer.tokenize sql).1) ∧ HasColumn sql ∧ FitsSql sql)
    ⟨fun h => ⟨h.1, h.2.1, h.2.2⟩, fun h => ⟨h.lengths, h.columns, h.fits⟩⟩

/-- A text that may make the parser throw, but does no harm to the tables. -/
structure Tame (sql : Bytes) : Prop where
  columns : HasColumn sql
  fits : FitsSql sql

theorem Harmless.tame {sql : Bytes} (h : Harmless sql) : Tame sql := ⟨h.columns, h.fits⟩

/-! ## Queries -/

/-- Every row of an answer is put together from rows that have not outlived
their lifetime. -/
def FreshData (births : List Birth) (now : Int64) (rows : List Row) : Prop :=
  ∃ names : List Bytes, Grounded (names.map (freshRows births now)) rows

/-- An executor and the births so far. -/
structure Chronicle where
  ex : Executor
  births : List Birth

/-- What a call must meet for expired rows not to show, given the calls before
it: a table it creates has rows that fit, the rows it inserts expire after
time 0, and no row that an earlier query with the same normalized text could
see has expired since, unless its answer is no longer in the cache. -/
structure Timely (past : List (Int64 × Bytes)) (c : Chronicle) (call : Int64 × Bytes) : Prop where
  fits : FitsSql call.2
  insert : ∀ stmt, parseSql call.2 = .ok (.ok (.insert stmt)) →
    0 < call.1.toInt + defaultTtlSeconds.toNat
  select : (c.ex.cache.cacheMap.lookup (LRUCache.normalize call.2)).isSome →
    ∀ earlier ∈ past, ∀ sel, parseSql earlier.2 = .ok (.ok (.select sel)) →
      LRUCache.normalize earlier.2 = LRUCache.normalize call.2 →
      ∀ b ∈ c.births, b.table ∈ reads sel →
        WithinTtl defaultTtlSeconds b.time earlier.1 → WithinTtl defaultTtlSeconds b.time call.1

/-! ## Statements -/

variable [FloatLib]

/-- The rows an `INSERT` of these tuples stores. -/
def takenRows (s : Schema) : List (List Bytes) → List Row
  | [] => []
  | tuple :: rest =>
      match Executor.parseTuple s tuple with
      | .error _ => []
      | .ok row => if s.validateRow row = none then row :: takenRows s rest else []

/-- The births of a statement run at `now`. -/
def born (ex : Executor) (now : Int64) (sql : Bytes) : List Birth :=
  match parseSql sql with
  | .ok (.ok (.insert stmt)) =>
      match ex.tables.lookup (Bytes.toUpper stmt.tableName) with
      | some t =>
          (takenRows t.schema stmt.batchValues).map (⟨Bytes.toUpper stmt.tableName, ·, now⟩)
      | none => []
  | _ => []

namespace Chronicle

def new : Chronicle := ⟨Executor.new, []⟩

/-- A text run at a time. -/
def executeSql (c : Chronicle) (call : Int64 × Bytes) : Outcome (Chronicle × QueryResult) := do
  let (ex, r) ← c.ex.executeSql call.1 call.2
  .ok (⟨ex, c.births ++ born c.ex call.1 call.2⟩, r)

end Chronicle

end FlexQL.Spec
