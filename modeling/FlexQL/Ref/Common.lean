import FlexQL.Lib.Bytes
import FlexQL.Lib.Double
import FlexQL.Lib.Outcome

/-!
# Shared types (`common.h`)

`DataType` is an enumeration over a byte, and a snapshot file can hold any
byte: the codes without a name are kept, as the C++ type keeps them. A
`Value` carries the one member its type says is set. The comparisons switch
on the type of the left operand and read that member of both; for a right
operand of another type that is whatever its union holds, with the bytes no
constructor set read as zero.

A `DECIMAL` is the bit pattern of a double. Turning text into a double and
back is the C library's business: `FloatLib` stands for it.
-/

namespace FlexQL.Ref

open Lib

/-- `DataType`, an `enum class : uint8_t`. -/
inductive DataType where
  | int
  | decimal
  | varchar
  | datetime
  /-- A byte none of the enumerators has. -/
  | unknown (code : UInt8)
  deriving DecidableEq, Repr, Inhabited

namespace DataType

def code : DataType → UInt8
  | .int => 0
  | .decimal => 1
  | .varchar => 2
  | .datetime => 3
  | .unknown b => b

def ofCode (b : UInt8) : DataType :=
  if b = 0 then .int
  else if b = 1 then .decimal
  else if b = 2 then .varchar
  else if b = 3 then .datetime
  else .unknown b

/-- `datatype_to_string` -/
def toText : DataType → Bytes
  | .int => Bytes.lit "INT"
  | .decimal => Bytes.lit "DECIMAL"
  | .varchar => Bytes.lit "VARCHAR"
  | .datetime => Bytes.lit "DATETIME"
  | .unknown _ => Bytes.lit "UNKNOWN"

end DataType

/-- `Value`: a type and the member of the union, or the string, it selects. -/
inductive Value where
  | int (v : Int32)
  | decimal (bits : UInt64)
  | varchar (s : Bytes)
  | datetime (v : Int64)
  | unknown (code : UInt8)
  deriving DecidableEq, Repr

instance : Inhabited Value := ⟨.int 0⟩

namespace Value

def type : Value → DataType
  | .int _ => .int
  | .decimal _ => .decimal
  | .varchar _ => .varchar
  | .datetime _ => .datetime
  | .unknown b => .unknown b

/-- The eight bytes of the union. -/
def word : Value → UInt64
  | .int v => v.toUInt32.toUInt64
  | .decimal b => b
  | .datetime v => v.toUInt64
  | .varchar _ | .unknown _ => 0

def intVal (v : Value) : Int32 := v.word.toUInt32.toInt32

def decVal (v : Value) : UInt64 := v.word

def dtVal (v : Value) : Int64 := v.word.toInt64

def strVal : Value → Bytes
  | .varchar s => s
  | _ => []

/-- `operator==` -/
def eq (a b : Value) : Bool :=
  if a.type ≠ b.type then false
  else match a.type with
    | .int => a.intVal = b.intVal
    | .decimal => Double.eq a.decVal b.decVal
    | .varchar => a.strVal = b.strVal
    | .datetime => a.dtVal = b.dtVal
    | .unknown _ => false

/-- `operator<`; strings compare as unsigned bytes. -/
def lt (a b : Value) : Bool :=
  match a.type with
  | .int => a.intVal < b.intVal
  | .decimal => Double.lt a.decVal b.decVal
  | .varchar => a.strVal < b.strVal
  | .datetime => a.dtVal < b.dtVal
  | .unknown _ => false

/-- `operator!=` -/
def ne (a b : Value) : Bool := !a.eq b

/-- `operator>` -/
def gt (a b : Value) : Bool := b.lt a

/-- `operator<=` -/
def le (a b : Value) : Bool := !b.lt a

/-- `operator>=` -/
def ge (a b : Value) : Bool := !a.lt b

end Value

/-- A row: one value per column. -/
abbrev Row := List Value

/-- `ColumnDef` -/
structure ColumnDef where
  name : Bytes
  type : DataType
  maxLen : UInt16
  deriving DecidableEq, Repr

/-- `ColumnDef::storage_size` -/
def ColumnDef.storageSize (c : ColumnDef) : UInt32 :=
  match c.type with
  | .int => 4
  | .decimal => 8
  | .varchar => 2 + c.maxLen.toUInt32
  | .datetime => 8
  | .unknown _ => 0

/-- `std::stoi`; `none` when it throws. -/
def stoi (s : Bytes) : Option Int32 :=
  match Bytes.leadingInt s with
  | some n => if -2 ^ 31 ≤ n ∧ n < 2 ^ 31 then some (Int32.ofInt n) else none
  | none => none

/-- `std::stoll`; `none` when it throws. -/
def stoll (s : Bytes) : Option Int64 :=
  match Bytes.leadingInt s with
  | some n => if -2 ^ 63 ≤ n ∧ n < 2 ^ 63 then some (Int64.ofInt n) else none
  | none => none

/-- The conversions between text and doubles of the C library. -/
class FloatLib where
  /-- `std::stod`; `none` when it throws. -/
  stod : Bytes → Option UInt64
  /-- What `Value::to_string` prints for a double. -/
  decimalText : UInt64 → Bytes

def defaultVarcharMax : UInt16 := 255

def defaultTtlSeconds : UInt32 := 3600

def arenaChunkSize : Nat := 4194304

def bptreeOrder : Nat := 256

def lruCacheCapacity : Nat := 1024

end FlexQL.Ref
