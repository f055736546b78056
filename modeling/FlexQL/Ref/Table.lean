import FlexQL.Ref.Arena
import FlexQL.Ref.BPTree
import FlexQL.Ref.Schema

/-!
# Tables (`table.h`, `table.cpp`)

A row is a block of bytes in the arena: the columns at the offsets of the
schema, then the expiry and the valid flag. The B+ tree maps values of the
first column to positions in the vector of row pointers. `now` is what
`std::time` returns during the call.
-/

namespace FlexQL.Ref

open Lib

/-- `Table::CmpOp` -/
inductive CmpOp where
  | eq
  | ne
  | lt
  | gt
  | le
  | ge
  deriving DecidableEq, Repr

/-- The switch of `compare_value`. -/
def CmpOp.holds : CmpOp → Value → Value → Bool
  | .eq, v, w => v.eq w
  | .ne, v, w => v.ne w
  | .lt, v, w => v.lt w
  | .gt, v, w => v.gt w
  | .le, v, w => v.le w
  | .ge, v, w => v.ge w

/-- The bytes `write_row` copies for a value in a column. -/
def encodeValue (type : DataType) (v : Value) : Bytes :=
  match type with
  | .int => Bytes.le v.intVal.toUInt32.toNat 4
  | .decimal => Bytes.le v.decVal.toNat 8
  | .varchar =>
      let len := v.strVal.length % 2 ^ 16
      Bytes.le len 2 ++ v.strVal.take len
  | .datetime => Bytes.le v.dtVal.toUInt64.toNat 8
  | .unknown _ => []

def int32OfBytes (w : Bytes) : Int32 := (UInt32.ofNat (Bytes.leNat w)).toInt32

def int64OfBytes (w : Bytes) : Int64 := (UInt64.ofNat (Bytes.leNat w)).toInt64

/-- `Table` -/
structure Table where
  name : Bytes
  schema : Schema
  ttlSeconds : UInt32
  arena : Arena
  cachedRowSize : UInt32
  rows : List Ptr
  rowCount : UInt64
  pkIndex : BPTree

namespace Table

/-- The constructor. -/
def new (name : Bytes) (schema : Schema) (ttlSeconds : UInt32) : Outcome Table := do
  let pk ← schema.pkColumn
  .ok {
    name := name
    schema := schema
    ttlSeconds := ttlSeconds
    arena := Arena.new arenaChunkSize
    cachedRowSize := schema.totalRowSize
    rows := []
    rowCount := 0
    pkIndex := BPTree.new pk.type }

/-- The loop of `write_row` from column `i` on. -/
def writeColumns (s : Schema) (p : Ptr) : Nat → List ColumnDef → Row → Arena → Outcome Arena
  | _, [], _, a => .ok a
  | _, _ :: _, [], _ => .error .undefined
  | i, c :: cs, v :: vs, a => do
      let a ← a.write p (s.columnOffset i).toNat (encodeValue c.type v)
      writeColumns s p (i + 1) cs vs a

/-- `write_row` -/
def writeRow (t : Table) (p : Ptr) (values : Row) (expiry : Int64) : Outcome Table := do
  let a ← writeColumns t.schema p 0 t.schema.columns values t.arena
  let a ← a.write p t.schema.expiryOffset.toNat (Bytes.le expiry.toUInt64.toNat 8)
  let a ← a.write p t.schema.validOffset.toNat [1]
  .ok { t with arena := a }

/-- `read_value` -/
def readValue (t : Table) (p : Ptr) (colIdx : Nat) : Outcome Value :=
  match t.schema.columns[colIdx]? with
  | none => .error .undefined
  | some col =>
      let offset := (t.schema.columnOffset colIdx).toNat
      match col.type with
      | .int => do
          let w ← t.arena.read p offset 4
          .ok (.int (int32OfBytes w))
      | .decimal => do
          let w ← t.arena.read p offset 8
          .ok (.decimal (UInt64.ofNat (Bytes.leNat w)))
      | .varchar => do
          let w ← t.arena.read p offset 2
          let s ← t.arena.read p (offset + 2) (Bytes.leNat w)
          .ok (.varchar s)
      | .datetime => do
          let w ← t.arena.read p offset 8
          .ok (.datetime (int64OfBytes w))
      | .unknown c => .ok (.unknown c)

/-- `read_row_projected` -/
def readRowProjected (t : Table) (p : Ptr) (cols : List Nat) : Outcome Row :=
  cols.mapM (t.readValue p)

/-- `read_row` -/
def readRow (t : Table) (p : Ptr) : Outcome Row :=
  t.readRowProjected p (List.range t.schema.columns.length)

/-- The expiry stored with a row. -/
def readExpiry (t : Table) (p : Ptr) : Outcome Int64 := do
  let w ← t.arena.read p t.schema.expiryOffset.toNat 8
  .ok (int64OfBytes w)

/-- The valid flag stored with a row. -/
def readValid (t : Table) (p : Ptr) : Outcome Nat := do
  let w ← t.arena.read p t.schema.validOffset.toNat 1
  .ok (Bytes.leNat w)

/-- `is_row_valid` -/
def isRowValid (t : Table) (now : Int64) (p : Ptr) : Outcome Bool := do
  let valid ← t.readValid p
  if valid = 0 then .ok false
  else
    let expiry ← t.readExpiry p
    .ok !(0 < expiry && expiry < now)

/-- `compare_value` -/
def compareValue (t : Table) (p : Ptr) (colIdx : Nat) (op : CmpOp) (target : Value) :
    Outcome Bool := do
  let v ← t.readValue p colIdx
  .ok (op.holds v target)

/-- `insert`; the answer is the error, if there is one. -/
def insert (t : Table) (now : Int64) (values : Row) : Outcome (Table × Option Bytes) :=
  match t.schema.validateRow values with
  | some error => .ok (t, some error)
  | none => do
      let (a, ptr) ← t.arena.allocate t.cachedRowSize.toNat
      match ptr with
      | none => .ok ({ t with arena := a }, some (Bytes.lit "Out of memory"))
      | some p =>
          let expiry := if 0 < t.ttlSeconds then
              now + t.ttlSeconds.toUInt64.toInt64
            else 0
          let t ← { t with arena := a }.writeRow p values expiry
          let rowId := t.rows.length
          match values[t.schema.pkIndex]? with
          | none => .error .undefined
          | some pk =>
              let (index, _) ← t.pkIndex.insert pk rowId
              .ok ({ t with
                rows := t.rows ++ [p]
                pkIndex := index
                rowCount := t.rowCount + 1 }, none)

/-- The loop of the scans: the rows that pass, in order. -/
def scanRows (keep : Ptr → Outcome Bool) (read : Ptr → Outcome Row) :
    List Ptr → Outcome (List Row)
  | [] => .ok []
  | p :: ps => do
      if ← keep p then
        let row ← read p
        let rest ← scanRows keep read ps
        .ok (row :: rest)
      else scanRows keep read ps

/-- `scan_all` -/
def scanAll (t : Table) (now : Int64) : Outcome (List Row) :=
  scanRows (t.isRowValid now) t.readRow t.rows

/-- `scan_projected` -/
def scanProjected (t : Table) (now : Int64) (cols : List Nat) : Outcome (List Row) :=
  scanRows (t.isRowValid now) (t.readRowProjected · cols) t.rows

/-- A whole row, or the projected columns if there are any. -/
def readSelected (t : Table) (projectCols : List Nat) (p : Ptr) : Outcome Row :=
  if projectCols.isEmpty then t.readRow p else t.readRowProjected p projectCols

/-- The lambda `collect` of `index_range`; its state is the vector `results`. -/
def collect (t : Table) (now : Int64) (projectCols : List Nat) :
    BPTree.RangeCallback (Outcome (List Row)) := fun results rowId =>
  (do
    let rows ← results
    match t.rows[rowId]? with
    | none => .ok rows
    | some p =>
        if ← t.isRowValid now p then
          let row ← t.readSelected projectCols p
          .ok (rows ++ [row])
        else .ok rows, true)

/-- `index_range` -/
def indexRange (t : Table) (now : Int64) (op : CmpOp) (pkValue : Value)
    (projectCols : List Nat) : Outcome (List Row) := do
  let cb := t.collect now projectCols
  let results ← match op with
    | .eq => t.pkIndex.rangeEq pkValue cb (.ok [])
    | .ne => t.pkIndex.rangeNe pkValue cb (.ok [])
    | .lt => t.pkIndex.rangeLt pkValue cb (.ok [])
    | .gt => t.pkIndex.rangeGt pkValue cb (.ok [])
    | .le => t.pkIndex.rangeLe pkValue cb (.ok [])
    | .ge => t.pkIndex.rangeGe pkValue cb (.ok [])
  results

/-- `scan_where` -/
def scanWhere (t : Table) (now : Int64) (colIdx : Nat) (op : CmpOp) (value : Value)
    (projectCols : List Nat) : Outcome (List Row) :=
  if colIdx = t.schema.pkIndex then t.indexRange now op value projectCols
  else scanRows (fun p => do
      if ← t.isRowValid now p then t.compareValue p colIdx op value else .ok false)
    (t.readSelected projectCols) t.rows

/-- `index_lookup` -/
def indexLookup (t : Table) (now : Int64) (pkValue : Value) : Outcome (List Row) := do
  let rowId ← t.pkIndex.find pkValue
  if 0 ≤ rowId then
    match t.rows[rowId.toNat]? with
    | none => .ok []
    | some p =>
        if ← t.isRowValid now p then
          let row ← t.readRow p
          .ok [row]
        else .ok []
  else .ok []

/-- The loop of `cleanup_expired`; counts the rows it marks. -/
def cleanupRows (now : Int64) : List Ptr → Table → Nat → Outcome (Table × Nat)
  | [], t, cleaned => .ok (t, cleaned)
  | p :: ps, t, cleaned => do
      let valid ← t.readValid p
      if valid = 1 then
        let expiry ← t.readExpiry p
        if 0 < expiry && expiry < now then
          let a ← t.arena.write p t.schema.validOffset.toNat [0]
          cleanupRows now ps { t with arena := a } (cleaned + 1)
        else cleanupRows now ps t cleaned
      else cleanupRows now ps t cleaned

/-- `cleanup_expired` -/
def cleanupExpired (t : Table) (now : Int64) : Outcome (Table × Nat) := do
  let (t, cleaned) ← cleanupRows now t.rows t 0
  .ok ({ t with rowCount := t.rowCount - UInt64.ofNat cleaned }, cleaned)

end Table

end FlexQL.Ref
