import FlexQL.Ref.Table
import FlexQL.Spec.BPTree

/-!
# What a table holds

To its users a table is a list of records in the order they were inserted. A
record is a row with the time it expires at and a flag the sweeper clears.
How the record is laid out in memory is the business of the schema: `Fits`
says that its 32-bit offsets are the sums they stand for.
-/

namespace FlexQL.Spec

open Lib FlexQL.Ref

/-- A stored row. -/
structure Record where
  values : Row
  expiry : Int64
  valid : Bool
  deriving DecidableEq, Repr

/-- Queries at time `now` see the record. -/
def Record.live (now : Int64) (r : Record) : Bool :=
  r.valid && !(0 < r.expiry && r.expiry < now)

/-- What a sweep at time `now` leaves of the record. -/
def Record.sweep (now : Int64) (r : Record) : Record :=
  { r with valid := r.live now }

/-- The bytes the columns take up. -/
def extent (cols : List ColumnDef) : Nat :=
  (cols.map fun c => c.storageSize.toNat).sum

/-- The schema has a first column, and a row of it has fewer than 2^32 bytes. -/
structure Fits (s : Schema) : Prop where
  built : ∃ cols, s = Schema.empty.addColumns cols
  pk : s.columns ≠ []
  size : extent s.columns + 9 < 2 ^ 32

/-- When a row inserted at `now` expires; 0 is never. -/
def expiryAt (ttlSeconds : UInt32) (now : Int64) : Int64 :=
  if 0 < ttlSeconds then now + ttlSeconds.toUInt64.toInt64 else 0

/-- The type of the first column. -/
def pkType (s : Schema) : DataType := (s.columns.map (·.type)).headD .int

/-- The value a row is indexed by. -/
def key (row : Row) : Value := row.headD default

/-- The insertions into the index that a list of rows stands for: a row is
found under its first value, at its position. -/
def indexOps (rows : List Row) : List (Value × Nat) :=
  rows.zipIdx.map fun r => (key r.1, r.2)

/-- The index over a list of rows. -/
def buildIndex (s : Schema) (rows : List Row) : Outcome BPTree :=
  (BPTree.new (pkType s)).insertAll (indexOps rows)

/-- A run of successful insertions, each at its own time. -/
inductive Inserted : Table → List (Int64 × Row) → Table → Prop where
  | nil (t : Table) : Inserted t [] t
  | snoc {t t' t'' : Table} {ops : List (Int64 × Row)} {now : Int64} {row : Row} :
      Inserted t ops t' → t'.insert now row = .ok (t'', none) →
      Inserted t (ops ++ [(now, row)]) t''

/-- The record an insertion stores. -/
def recordOf (ttlSeconds : UInt32) (op : Int64 × Row) : Record :=
  ⟨op.2, expiryAt ttlSeconds op.1, true⟩

/-- No row that a query for `op v` at `now` should see is followed by another
row with the same first value. -/
def Unshadowed (ttlSeconds : UInt32) (now : Int64) (op : CmpOp) (v : Value)
    (ops : List (Int64 × Row)) : Prop :=
  ops.Pairwise fun earlier later =>
    (recordOf ttlSeconds earlier).live now = true → op.holds (key earlier.2) v = true →
      key later.2 ≠ key earlier.2

/-- A row as a query asks for it: the given columns, or all of it. -/
def project (cols : List Nat) (row : Row) : Row :=
  if cols.isEmpty then row else cols.map fun i => row.getD i default

/-- A call that changes a table. -/
inductive TableOp where
  | insert (now : Int64) (row : Row)
  | cleanup (now : Int64)
  deriving DecidableEq, Repr

def TableOp.time : TableOp → Int64
  | .insert now _ => now
  | .cleanup now => now

/-- A table after a sequence of calls; `insert` may refuse its row. -/
def runTable (t : Table) : List TableOp → Outcome Table
  | [] => .ok t
  | .insert now row :: ops => do
      let (t, _) ← t.insert now row
      runTable t ops
  | .cleanup now :: ops => do
      let (t, _) ← t.cleanupExpired now
      runTable t ops

/-- The insertions of rows that the schema admits. -/
def admitted (s : Schema) (ops : List TableOp) : List (Int64 × Row) :=
  ops.filterMap fun
    | .insert now row => if s.validateRow row = none then some (now, row) else none
    | .cleanup _ => none

/-- No later insertion has the same first value. -/
def IsLatest (ops : List (Int64 × Row)) (op : Int64 × Row) : Prop :=
  ∃ before after, ops = before ++ op :: after ∧ ∀ later ∈ after, key later.2 ≠ key op.2

/-- A row inserted at `now` has not expired at `later`. -/
def WithinTtl (ttlSeconds : UInt32) (now later : Int64) : Prop :=
  ttlSeconds = 0 ∨ later.toInt ≤ now.toInt + ttlSeconds.toNat

instance (ttlSeconds : UInt32) (now later : Int64) : Decidable (WithinTtl ttlSeconds now later) :=
  inferInstanceAs (Decidable (_ ∨ _))

end FlexQL.Spec
