import FlexQL.Spec.Table

/-!
# The calls of a table and its memory

A row is a sequence of fields: its columns, the expiry and the valid flag, one
behind the other. `write_row` is a list of writes, one for each field. Sweeps
come with the number of rows they took away.
-/

namespace FlexQL.Spec

open Lib FlexQL.Ref

/-! ## Fields -/

/-- The sizes of the fields of a row. -/
def fieldSizes (s : Schema) : List Nat := s.columns.map (fun c => c.storageSize.toNat) ++ [8, 1]

/-- Where a field begins; behind the last one it is where the row ends. -/
def fieldStart (s : Schema) (i : Nat) : Nat := ((fieldSizes s).take i).sum

/-- The writes of `write_row` to the columns from `i` on, each with its offset. -/
def columnWrites (s : Schema) : Nat → List ColumnDef → Row → List (Nat × Bytes)
  | i, c :: cs, v :: vs =>
      ((s.columnOffset i).toNat, encodeValue c.type v) :: columnWrites s (i + 1) cs vs
  | _, _, _ => []

/-- The writes of `write_row`. -/
def rowWrites (s : Schema) (row : Row) (expiry : Int64) : List (Nat × Bytes) :=
  columnWrites s 0 s.columns row ++
    [(s.expiryOffset.toNat, Bytes.le expiry.toUInt64.toNat 8), (s.validOffset.toNat, [1])]

/-- Writes behind a pointer, one after another. -/
def writeAll (p : Ptr) : List (Nat × Bytes) → Arena → Outcome Arena
  | [], a => .ok a
  | w :: ws, a => do
      let a ← a.write p w.1 w.2
      writeAll p ws a

/-- `insert` calls. -/
def insertions (calls : List (Int64 × Row)) : List TableOp := calls.map fun c => .insert c.1 c.2

/-! ## Sweeps -/

/-- A table after a sequence of calls, and what the sweeps returned. -/
def runSweeps (t : Table) : List TableOp → Outcome (Table × List Nat)
  | [] => .ok (t, [])
  | .insert now row :: ops => do
      let (t, _) ← t.insert now row
      runSweeps t ops
  | .cleanup now :: ops => do
      let (t, n) ← t.cleanupExpired now
      let (t, ns) ← runSweeps t ops
      .ok (t, n :: ns)

/-- How many of the rows have expired at `now` but had not at the sweep before. -/
def newlyExpired (ttlSeconds : UInt32) (stored : List (Int64 × Row)) (last : Option Int64)
    (now : Int64) : Nat :=
  stored.countP fun e => !WithinTtl ttlSeconds e.1 now && last.all (WithinTtl ttlSeconds e.1 ·)

/-- What the sweeps of a sequence of calls should return, from a table with the
rows `stored` that was last swept at `last`. -/
def sweepCounts (s : Schema) (ttlSeconds : UInt32) :
    List (Int64 × Row) → Option Int64 → List TableOp → List Nat
  | _, _, [] => []
  | stored, last, .insert now row :: ops =>
      sweepCounts s ttlSeconds (stored ++ admitted s [.insert now row]) last ops
  | stored, last, .cleanup now :: ops =>
      newlyExpired ttlSeconds stored last now :: sweepCounts s ttlSeconds stored (some now) ops

/-- No query at `later` tells the tables apart. -/
structure SameScans (later : Int64) (t t' : Table) : Prop where
  all : t'.scanAll later = t.scanAll later
  filtered : ∀ colIdx op v cols, t'.scanWhere later colIdx op v cols =
    t.scanWhere later colIdx op v cols
  projected : ∀ cols, t'.scanProjected later cols = t.scanProjected later cols
  range : ∀ op v cols, t'.indexRange later op v cols = t.indexRange later op v cols

end FlexQL.Spec
