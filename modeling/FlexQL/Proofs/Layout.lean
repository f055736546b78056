import FlexQL.Proofs.Arena
import FlexQL.Spec.Table

/-!
# Rows in memory

In a schema that fits, column `i` starts where the columns before it end, the
expiry follows the last column and the valid flag the expiry. A value takes
no more than its column's share, so writing one leaves the others alone, and
reading a column gives back what was written.
-/

namespace FlexQL.Proofs

open Lib FlexQL.Ref FlexQL.Spec

/-! ## Offsets -/

section Offsets

@[simp] theorem extent_nil : extent [] = 0 := rfl

theorem extent_append (a b : List ColumnDef) : extent (a ++ b) = extent a + extent b := by
  simp [extent]

theorem extent_cons (c : ColumnDef) (cs : List ColumnDef) :
    extent (c :: cs) = c.storageSize.toNat + extent cs := by
  simp [extent]

theorem extent_take_le (cols : List ColumnDef) (i : Nat) :
    extent (cols.take i) ≤ extent cols := by
  conv_rhs => rw [← List.take_append_drop i cols, extent_append]
  exact Nat.le_add_right _ _

theorem extent_take_succ {cols : List ColumnDef} {i : Nat} {c : ColumnDef}
    (h : cols[i]? = some c) :
    extent (cols.take (i + 1)) = extent (cols.take i) + c.storageSize.toNat := by
  rw [List.take_add_one, h, Option.toList_some, extent_append, extent_cons, extent_nil,
    Nat.add_zero]

theorem extent_take_mono (cols : List ColumnDef) {i j : Nat} (h : i ≤ j) :
    extent (cols.take i) ≤ extent (cols.take j) := by
  rw [← Nat.min_eq_left h, ← List.take_take]
  exact extent_take_le _ i

/-- What `add_column` has computed after any number of calls. -/
structure Built (s : Schema) : Prop where
  offsets : s.offsets = (List.range s.columns.length).map
    fun i => UInt32.ofNat (extent (s.columns.take i))
  rowSize : s.rowSize = UInt32.ofNat (extent s.columns)
  pkIndex : s.pkIndex = 0

theorem Built.addColumn {s : Schema} (h : Built s) (name : Bytes) (type : DataType)
    (maxLen : UInt16) : Built (s.addColumn name type maxLen) := by
  refine ⟨?_, ?_, h.pkIndex⟩
  · simp only [Schema.addColumn, List.length_append, List.length_singleton]
    rw [List.range_succ, List.map_append, List.map_singleton, h.offsets, h.rowSize,
      List.take_left]
    congr 1
    refine List.map_congr_left fun i hi => ?_
    rw [List.mem_range] at hi
    rw [List.take_append_of_le_length (Nat.le_of_lt hi)]
  · simp only [Schema.addColumn, extent_append, h.rowSize]
    rw [UInt32.ofNat_add]
    simp [extent]

theorem Built.addColumns {s : Schema} (h : Built s) (cols : List ColumnDef) :
    Built (s.addColumns cols) := by
  induction cols generalizing s with
  | nil => exact h
  | cons c cs ih => exact ih (h.addColumn c.name c.type c.maxLen)

theorem built_empty : Built Schema.empty := ⟨rfl, rfl, rfl⟩

end Offsets

end FlexQL.Proofs

namespace FlexQL.Spec

open Lib FlexQL.Ref FlexQL.Proofs

variable {s : Schema}

theorem Fits.toBuilt (h : Fits s) : Built s := by
  obtain ⟨cols, hcols⟩ := h.built
  rw [hcols]
  exact built_empty.addColumns cols

theorem Fits.columnOffset (h : Fits s) {i : Nat} (hi : i < s.columns.length) :
    (s.columnOffset i).toNat = extent (s.columns.take i) := by
  have hle := extent_take_le s.columns i
  have hsize := h.size
  rw [Schema.columnOffset, h.toBuilt.offsets, List.getD_eq_getElem?_getD, List.getElem?_map,
    List.getElem?_range hi]
  exact UInt32.toNat_ofNat_of_lt' (by show _ < 2 ^ 32; omega)

theorem Fits.expiryOffset (h : Fits s) : s.expiryOffset.toNat = extent s.columns := by
  have hsize := h.size
  rw [Schema.expiryOffset, h.toBuilt.rowSize]
  exact UInt32.toNat_ofNat_of_lt' (by show _ < 2 ^ 32; omega)

theorem Fits.validOffset (h : Fits s) : s.validOffset.toNat = extent s.columns + 8 := by
  have hsize := h.size
  have hexp := h.expiryOffset
  rw [Schema.expiryOffset] at hexp
  rw [Schema.validOffset, UInt32.toNat_add, hexp]
  exact Nat.mod_eq_of_lt (by show _ + 8 < 2 ^ 32; omega)

theorem Fits.totalRowSize (h : Fits s) : s.totalRowSize.toNat = extent s.columns + 9 := by
  have hsize := h.size
  have hexp := h.expiryOffset
  rw [Schema.expiryOffset] at hexp
  rw [Schema.totalRowSize, UInt32.toNat_add, hexp]
  exact Nat.mod_eq_of_lt (by show _ + 9 < 2 ^ 32; omega)

end FlexQL.Spec

namespace FlexQL.Proofs

open Lib FlexQL.Ref FlexQL.Spec

/-! ## Values in their columns -/

/-- The value is one `validate_row` lets into the column. -/
structure Accepts (c : ColumnDef) (v : Value) : Prop where
  type : v.type = c.type
  short : c.type = .varchar → v.strVal.length ≤ c.maxLen.toNat

theorem validateValues_eq_none {cols : List ColumnDef} {vs : Row}
    (hlen : vs.length = cols.length) :
    Schema.validateValues cols vs = none ↔ List.Forall₂ Accepts cols vs := by
  induction cols generalizing vs with
  | nil =>
      obtain rfl := List.length_eq_zero_iff.mp hlen
      simp [Schema.validateValues]
  | cons c cs ih =>
      cases vs with
      | nil => simp at hlen
      | cons v vs =>
          rw [Schema.validateValues, List.forall₂_cons, ← ih (by simpa using hlen)]
          split
          · next ht => simp only [reduceCtorEq, false_iff]; exact fun h => ht h.1.type
          · next ht =>
              split
              · next hs =>
                  simp only [reduceCtorEq, false_iff]
                  exact fun h => Nat.not_lt.mpr (h.1.short hs.1) hs.2
              · next hs =>
                  refine ⟨fun h => ⟨⟨not_not.mp ht, fun hc => ?_⟩, h⟩, fun h => h.2⟩
                  exact Nat.not_lt.mp fun hlt => hs ⟨hc, hlt⟩

theorem validateRow_eq_none {s : Schema} {vs : Row} :
    s.validateRow vs = none ↔ List.Forall₂ Accepts s.columns vs := by
  rw [Schema.validateRow]
  split
  · next h =>
      simp only [reduceCtorEq, false_iff]
      exact fun hf => h hf.length_eq.symm
  · next h => exact validateValues_eq_none (not_not.mp h)

variable {a a' : Arena} {p q : Ptr} {c : ColumnDef} {v : Value}

theorem storageSize_varchar (hc : c.type = .varchar) :
    c.storageSize.toNat = 2 + c.maxLen.toNat := by
  have := c.maxLen.toNat_lt
  rw [ColumnDef.storageSize, hc, UInt32.toNat_add, UInt16.toNat_toUInt32]
  exact Nat.mod_eq_of_lt (by show 2 + _ < 2 ^ 32; omega)

theorem Accepts.length_lt (h : Accepts c v) (hc : c.type = .varchar) :
    v.strVal.length < 2 ^ 16 :=
  Nat.lt_of_le_of_lt (h.short hc) c.maxLen.toNat_lt

theorem Accepts.encode_varchar (h : Accepts c v) (hc : c.type = .varchar) :
    encodeValue c.type v = Bytes.le v.strVal.length 2 ++ v.strVal := by
  have hlt := h.length_lt hc
  simp only [encodeValue, hc]
  rw [Nat.mod_eq_of_lt hlt, List.take_of_length_le (Nat.le_refl _)]

theorem Accepts.encode_length (h : Accepts c v) :
    (encodeValue c.type v).length ≤ c.storageSize.toNat := by
  cases hc : c.type with
  | varchar =>
      rw [← hc, h.encode_varchar hc, storageSize_varchar hc, List.length_append, Bytes.le_length]
      exact Nat.add_le_add_left (h.short hc) 2
  | int | decimal | datetime => simp [encodeValue, ColumnDef.storageSize, hc]
  | unknown b => simp [encodeValue]

theorem int32OfBytes_le (n : Int32) :
    int32OfBytes (Bytes.le (Value.int n).intVal.toUInt32.toNat 4) = n := by
  rw [int32OfBytes, Bytes.leNat_le_of_lt (UInt32.toNat_lt _)]
  simp [Value.intVal, Value.word]

theorem bits_le (bits : UInt64) :
    UInt64.ofNat (Bytes.leNat (Bytes.le (Value.decimal bits).decVal.toNat 8)) = bits := by
  rw [Bytes.leNat_le_of_lt (UInt64.toNat_lt _)]
  simp [Value.decVal, Value.word]

theorem int64OfBytes_le (n : Int64) :
    int64OfBytes (Bytes.le (Value.datetime n).dtVal.toUInt64.toNat 8) = n := by
  rw [int64OfBytes, Bytes.leNat_le_of_lt (UInt64.toNat_lt _)]
  simp [Value.dtVal, Value.word]

/-- Reading a column gives back the value that was written to it. -/
theorem readValue_of_holds {t : Table} {i : Nat} (hcol : t.schema.columns[i]? = some c)
    (hv : Accepts c v)
    (h : Holds t.arena p (t.schema.columnOffset i).toNat (encodeValue c.type v)) :
    t.readValue p i = .ok v := by
  rw [Table.readValue, hcol]
  have htype := hv.type
  cases hc : c.type with
  | int =>
      rw [hc] at h htype
      cases v <;> simp only [Value.type, reduceCtorEq] at htype
      next n =>
        rw [Holds, encodeValue, Bytes.le_length] at h
        simp only [hc, h, Outcome.bind_ok, int32OfBytes_le]
  | decimal =>
      rw [hc] at h htype
      cases v <;> simp only [Value.type, reduceCtorEq] at htype
      next n =>
        rw [Holds, encodeValue, Bytes.le_length] at h
        simp only [hc, h, Outcome.bind_ok, bits_le]
  | datetime =>
      rw [hc] at h htype
      cases v <;> simp only [Value.type, reduceCtorEq] at htype
      next n =>
        rw [Holds, encodeValue, Bytes.le_length] at h
        simp only [hc, h, Outcome.bind_ok, int64OfBytes_le]
  | varchar =>
      rw [hv.encode_varchar hc, holds_append, Bytes.le_length] at h
      obtain ⟨hlen, hstr⟩ := h
      rw [Holds, Bytes.le_length] at hlen
      rw [hc] at htype
      have hlt := hv.length_lt hc
      cases v <;> simp only [Value.type, reduceCtorEq] at htype
      next s =>
        simp only [hc, hlen, Outcome.bind_ok]
        rw [Bytes.leNat_le_of_lt hlt]
        simp only [Holds, Value.strVal] at hstr
        simp only [Value.strVal, hstr, Outcome.bind_ok]
  | unknown b =>
      rw [hc] at htype
      cases v <;> simp only [Value.type, reduceCtorEq, DataType.unknown.injEq] at htype
      next n => simp only [hc, htype]

end FlexQL.Proofs
