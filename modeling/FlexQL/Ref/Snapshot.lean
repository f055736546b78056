import FlexQL.Lib.Reader
import FlexQL.Ref.Table

/-!
# Snapshots (`snapshot.h`, `snapshot.cpp`)

A snapshot file holds the sequence number it covers, and of every table the
schema and the rows that are not expired. `save` writes a temporary file and
renames it, so the file at the final path is always a whole one; what is
modelled here is its contents. The order in which an unordered map lists its
tables is a parameter.
-/

namespace FlexQL.Ref

open Lib

namespace Snapshot

/-- `SNAPSHOT_MAGIC` -/
def magic : Nat := 0x534849564451534E

/-- `SNAPSHOT_VERSION` -/
def version : Nat := 1

/-- The longest string the reader takes. -/
def maxStr : Nat := 10 * 1024 * 1024

/-! ## Save -/

/-- `write_str` -/
def writeStr (s : Bytes) : Bytes :=
  let len := s.length % 2 ^ 32
  Bytes.le len 4 ++ s.take len

/-- A column of a schema. -/
def writeColumn (c : ColumnDef) : Bytes :=
  writeStr c.name ++ Bytes.le c.type.code.toNat 1 ++ Bytes.le c.maxLen.toNat 2

/-- A value with its type; a type without a name has nothing behind it. -/
def writeValue (v : Value) : Bytes :=
  Bytes.le v.type.code.toNat 1 ++ (match v.type with
    | .int => Bytes.le v.intVal.toUInt32.toNat 4
    | .decimal => Bytes.le v.decVal.toNat 8
    | .varchar => writeStr v.strVal
    | .datetime => Bytes.le v.dtVal.toUInt64.toNat 8
    | .unknown _ => [])

/-- A row. -/
def writeRow (row : Row) : Bytes := Bytes.le row.length 4 ++ row.flatMap writeValue

/-- A table with the rows of its scan. -/
def writeTable (name : Bytes) (schema : Schema) (rows : List Row) : Bytes :=
  writeStr name ++ Bytes.le schema.columns.length 4 ++ schema.columns.flatMap writeColumn ++
    Bytes.le rows.length 8 ++ rows.flatMap writeRow

/-- The part of the file in front of the tables. -/
def writeHeader (lastWalLsn : UInt64) (numTables : Nat) : Bytes :=
  Bytes.le magic 8 ++ Bytes.le version 8 ++ Bytes.le lastWalLsn.toNat 8 ++ Bytes.le numTables 4

/-- One round of the loop over the tables. -/
def saveTable (now : Int64) (p : Bytes × Table) : Outcome Bytes := do
  let rows ← p.2.scanAll now
  .ok (writeTable p.1 p.2.schema rows)

/-- What `save` writes to the temporary file. -/
def contents (now : Int64) (tables : List (Bytes × Table)) (lastWalLsn : UInt64) :
    Outcome Bytes := do
  let parts ← tables.mapM (saveTable now)
  .ok (writeHeader lastWalLsn tables.length ++ parts.flatten)

/-- The call that the file system refuses. -/
inductive SaveFault where
  | openTemp
  | renameTemp
  deriving DecidableEq, Repr

/-- `save`: the file that is now at the path, or the error. -/
def save (now : Int64) (fault : Option SaveFault) (path : Bytes) (tables : List (Bytes × Table))
    (lastWalLsn : UInt64) : Outcome (Except Bytes Bytes) :=
  match fault with
  | some .openTemp =>
      .ok (.error (Bytes.lit "Cannot open snapshot file for writing: " ++ path ++
        Bytes.lit ".tmp"))
  | some .renameTemp => do
      let _ ← contents now tables lastWalLsn
      .ok (.error (Bytes.lit "Cannot rename snapshot temp file to: " ++ path))
  | none => do
      let file ← contents now tables lastWalLsn
      .ok (.ok file)

/-- One round of the loop over the tables, with the stream. -/
def saveTableInto (now : Int64) (file : OutStream) (p : Bytes × Table) : Outcome OutStream := do
  let part ← saveTable now p
  .ok (file.write part)

/-- `save` through a stream that has room for so many bytes. Neither the
writes nor `flush` and `close` are asked whether they succeeded, so the file
is renamed with whatever is in it. -/
def saveInto (room : Nat) (now : Int64) (tables : List (Bytes × Table)) (lastWalLsn : UInt64) :
    Outcome (Except Bytes Bytes) := do
  let file := (OutStream.opened room).write (writeHeader lastWalLsn tables.length)
  let file ← tables.foldlM (saveTableInto now) file
  .ok (.ok file.bytes)

/-! ## Load -/

/-- A read, or the error to return. -/
def orFail {α : Type} (r : Reader α) (error : Bytes) (s : Bytes) : Except Bytes (α × Bytes) :=
  match r s with
  | some p => .ok p
  | none => .error error

/-- `read_str` -/
def readStr : Reader Bytes := (Reader.uint 4).andThen fun len s =>
  if maxStr < len then none else Reader.bytes len s

/-- The three reads of a column. -/
def readColumn : Reader ColumnDef :=
  readStr.andThen fun name => (Reader.uint 1).andThen fun typeByte =>
    (Reader.uint 2).andThen fun maxLen s =>
      some (⟨name, DataType.ofCode (UInt8.ofNat typeByte), UInt16.ofNat maxLen⟩, s)

/-- The loop over the columns. -/
def readColumns (tableName : Bytes) : Nat → Schema → Bytes → Except Bytes (Schema × Bytes)
  | 0, schema, s => .ok (schema, s)
  | n + 1, schema, s => do
      let (c, s) ← orFail readColumn
        (Bytes.lit "Cannot read column def for table: " ++ tableName) s
      readColumns tableName n (schema.addColumn c.name c.type c.maxLen) s

/-- A value. -/
def readValue (s : Bytes) : Except Bytes (Value × Bytes) := do
  let (typeByte, s) ← orFail (Reader.uint 1) (Bytes.lit "Cannot read value type") s
  match DataType.ofCode (UInt8.ofNat typeByte) with
  | .int => do
      let (w, s) ← orFail (Reader.bytes 4) (Bytes.lit "Cannot read INT value") s
      .ok (.int (int32OfBytes w), s)
  | .decimal => do
      let (w, s) ← orFail (Reader.bytes 8) (Bytes.lit "Cannot read DECIMAL value") s
      .ok (.decimal (UInt64.ofNat (Bytes.leNat w)), s)
  | .varchar => do
      let (w, s) ← orFail readStr (Bytes.lit "Cannot read VARCHAR value") s
      .ok (.varchar w, s)
  | .datetime => do
      let (w, s) ← orFail (Reader.bytes 8) (Bytes.lit "Cannot read DATETIME value") s
      .ok (.datetime (int64OfBytes w), s)
  | .unknown c => .ok (.unknown c, s)

/-- The loop over the values of a row. -/
def readValues : Nat → Bytes → Except Bytes (Row × Bytes)
  | 0, s => .ok ([], s)
  | n + 1, s => do
      let (v, s) ← readValue s
      let (vs, s) ← readValues n s
      .ok (v :: vs, s)

/-- A row. -/
def readRow (tableName : Bytes) (s : Bytes) : Except Bytes (Row × Bytes) := do
  let (numVals, s) ← orFail (Reader.uint 4)
    (Bytes.lit "Cannot read row values for table: " ++ tableName) s
  readValues numVals s

/-- The loop over the rows, which are inserted as they are read. -/
def loadRows (now : Int64) (tableName : Bytes) : Nat → Table → Bytes →
    Outcome (Except Bytes (Table × Bytes))
  | 0, t, s => .ok (.ok (t, s))
  | n + 1, t, s =>
      match readRow tableName s with
      | .error e => .ok (.error e)
      | .ok (row, s) => do
          let (t, e) ← t.insert now row
          match e with
          | some e =>
              .ok (.error (Bytes.lit "Cannot insert row during snapshot load: " ++ e))
          | none => loadRows now tableName n t s

/-- The name and the schema of a table. -/
def readSchema (s : Bytes) : Except Bytes ((Bytes × Schema) × Bytes) := do
  let (tableName, s) ← orFail readStr (Bytes.lit "Cannot read table name") s
  let (numCols, s) ← orFail (Reader.uint 4)
    (Bytes.lit "Cannot read column count for table: " ++ tableName) s
  let (schema, s) ← readColumns tableName numCols Schema.empty s
  .ok ((tableName, schema), s)

/-- One table. -/
def loadTable (now : Int64) (s : Bytes) : Outcome (Except Bytes ((Bytes × Table) × Bytes)) :=
  match readSchema s with
  | .error e => .ok (.error e)
  | .ok ((tableName, schema), s) => do
      let table ← Table.new tableName schema defaultTtlSeconds
      match orFail (Reader.uint 8)
          (Bytes.lit "Cannot read row count for table: " ++ tableName) s with
      | .error e => .ok (.error e)
      | .ok (numRows, s) => do
          match ← loadRows now tableName numRows table s with
          | .error e => .ok (.error e)
          | .ok (table, s) => .ok (.ok ((tableName, table), s))

/-- The loop over the tables. -/
def loadTables (now : Int64) : Nat → (Finmap fun _ : Bytes => Table) → Bytes →
    Outcome (Except Bytes (Finmap fun _ : Bytes => Table))
  | 0, tables, _ => .ok (.ok tables)
  | n + 1, tables, s => do
      match ← loadTable now s with
      | .error e => .ok (.error e)
      | .ok ((name, table), s) => loadTables now n (tables.insert name table) s

/-- The header: the sequence number and how many tables follow. A version
that cannot be read is reported as 0; the code prints a variable it has not
set. -/
def readHeader (s : Bytes) : Except Bytes ((UInt64 × Nat) × Bytes) := do
  let (m, s) ← orFail (Reader.uint 8) (Bytes.lit "Invalid snapshot magic") s
  if m ≠ magic then .error (Bytes.lit "Invalid snapshot magic")
  else
    let (v, s) ← orFail (Reader.uint 8) (Bytes.lit "Unsupported snapshot version: 0") s
    if v ≠ version then .error (Bytes.lit "Unsupported snapshot version: " ++ Bytes.ofNat v)
    else
      let (lsn, s) ← orFail (Reader.uint 8) (Bytes.lit "Cannot read WAL LSN from snapshot") s
      let (numTables, s) ← orFail (Reader.uint 4)
        (Bytes.lit "Cannot read table count from snapshot") s
      .ok ((UInt64.ofNat lsn, numTables), s)

/-- `LoadResult` of a load that succeeded. -/
structure LoadResult where
  lastWalLsn : UInt64
  tables : Finmap fun _ : Bytes => Table

/-- `load` of a file that exists. -/
def load (now : Int64) (file : Bytes) : Outcome (Except Bytes LoadResult) :=
  match readHeader file with
  | .error e => .ok (.error e)
  | .ok ((lsn, numTables), s) => do
      match ← loadTables now numTables ∅ s with
      | .error e => .ok (.error e)
      | .ok tables => .ok (.ok ⟨lsn, tables⟩)

end Snapshot

end FlexQL.Ref
