import FlexQL.Ref.Common
import Mathlib.Data.Finmap

/-!
# Table schemas (`schema.h`, `schema.cpp`)

A schema is built column by column. Offsets and sizes are `uint32_t` and
wrap; the name index keeps the last column of a name.
-/

namespace FlexQL.Ref

open Lib

/-- `Schema` -/
structure Schema where
  columns : List ColumnDef
  colIndex : Finmap fun _ : Bytes => Nat
  offsets : List UInt32
  rowSize : UInt32
  pkIndex : Nat

namespace Schema

/-- The default constructor. -/
def empty : Schema where
  columns := []
  colIndex := ∅
  offsets := []
  rowSize := 0
  pkIndex := 0

/-- `add_column`; only a `VARCHAR` keeps its length. -/
def addColumn (s : Schema) (name : Bytes) (type : DataType) (maxLen : UInt16) : Schema :=
  let ml := if type = .varchar then maxLen else 0
  let col : ColumnDef := ⟨name, type, ml⟩
  { s with
    columns := s.columns ++ [col]
    colIndex := s.colIndex.insert name s.columns.length
    offsets := s.offsets ++ [s.rowSize]
    rowSize := s.rowSize + col.storageSize }

/-- Column after column, as `CREATE TABLE` and the snapshot loader add them. -/
def addColumns (s : Schema) (cols : List ColumnDef) : Schema :=
  cols.foldl (fun s c => s.addColumn c.name c.type c.maxLen) s

/-- `find_column`; `none` is the answer -1. -/
def findColumn (s : Schema) (name : Bytes) : Option Nat := s.colIndex.lookup name

/-- `column_offset` -/
def columnOffset (s : Schema) (idx : Nat) : UInt32 := s.offsets.getD idx 0

/-- `pk_column` indexes the vector of columns. -/
def pkColumn (s : Schema) : Outcome ColumnDef :=
  match s.columns[s.pkIndex]? with
  | some c => .ok c
  | none => .error .undefined

def totalRowSize (s : Schema) : UInt32 := s.rowSize + 9

def expiryOffset (s : Schema) : UInt32 := s.rowSize

def validOffset (s : Schema) : UInt32 := s.rowSize + 8

/-- The loop of `validate_row`; the answer is the error, if there is one. -/
def validateValues : List ColumnDef → Row → Option Bytes
  | c :: cs, v :: vs =>
      if v.type ≠ c.type then
        some (Bytes.lit "Type mismatch for column '" ++ c.name ++
          Bytes.lit "': expected " ++ c.type.toText ++ Bytes.lit ", got " ++ v.type.toText)
      else if c.type = .varchar ∧ c.maxLen.toNat < v.strVal.length then
        some (Bytes.lit "VARCHAR overflow for column '" ++ c.name ++
          Bytes.lit "': max " ++ Bytes.ofNat c.maxLen.toNat ++ Bytes.lit ", got " ++
          Bytes.ofNat v.strVal.length)
      else validateValues cs vs
  | _, _ => none

/-- `validate_row` -/
def validateRow (s : Schema) (values : Row) : Option Bytes :=
  if values.length ≠ s.columns.length then
    some (Bytes.lit "Column count mismatch: expected " ++ Bytes.ofNat s.columns.length ++
      Bytes.lit ", got " ++ Bytes.ofNat values.length)
  else validateValues s.columns values

end Schema

end FlexQL.Ref
