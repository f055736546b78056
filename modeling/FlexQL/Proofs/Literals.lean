import FlexQL.Proofs.Queries
import FlexQL.Spec.Literals

/-!
# The literals that are taken for numbers

`std::stoi` and `std::stoll` read the number a literal starts with, so a
literal is taken as written just when it does not go on behind the number, or
have blanks before it. A statement hands its literals to `parse_literal` one
by one, for the tuples it stores and for the value it compares with.
-/

namespace FlexQL.Proofs

open Lib FlexQL.Ref FlexQL.Spec

section Literals

variable {literal : Bytes} {type : DataType} {v : Value} {n : Int}

theorem stoi_eq_some {x : Int32} : stoi literal = some x ↔
    ∃ m, Bytes.leadingInt literal = some m ∧ InRange .int m ∧ x = Int32.ofInt m := by
  rw [stoi]
  cases Bytes.leadingInt literal <;> simp [InRange, eq_comm]

theorem stoll_eq_some {x : Int64} : stoll literal = some x ↔
    ∃ m, Bytes.leadingInt literal = some m ∧ InRange .datetime m ∧ x = Int64.ofInt m := by
  rw [stoll]
  cases Bytes.leadingInt literal <;> simp [InRange, eq_comm]

variable [FloatLib]

theorem parseLiteral_int : Executor.parseLiteral literal .int = .ok v ↔
    ∃ x, stoi literal = some x ∧ v = .int x := by
  rw [Executor.parseLiteral]
  cases stoi literal <;> simp [eq_comm]

theorem parseLiteral_datetime : Executor.parseLiteral literal .datetime = .ok v ↔
    ∃ x, stoll literal = some x ∧ v = .datetime x := by
  rw [Executor.parseLiteral]
  cases stoll literal <;> simp [eq_comm]

/-- The value is the number the literal starts with, which is one of the type. -/
theorem leadingInt_of_parseLiteral (htype : Integral type)
    (h : Executor.parseLiteral literal type = .ok v) :
    ∃ m, Bytes.leadingInt literal = some m ∧ InRange type m ∧ numberOf v = some m := by
  rcases htype with rfl | rfl
  · obtain ⟨x, hx, rfl⟩ := parseLiteral_int.mp h
    obtain ⟨m, hm, hrange, rfl⟩ := stoi_eq_some.mp hx
    exact ⟨m, hm, hrange, congrArg some (Int32.toInt_ofInt_of_le hrange.1 hrange.2)⟩
  · obtain ⟨x, hx, rfl⟩ := parseLiteral_datetime.mp h
    obtain ⟨m, hm, hrange, rfl⟩ := stoll_eq_some.mp hx
    exact ⟨m, hm, hrange, congrArg some (Int64.toInt_ofInt_of_le hrange.1 hrange.2)⟩

theorem parseLiteral_of_leadingInt (htype : Integral type)
    (h : Bytes.leadingInt literal = some n) (hrange : InRange type n) :
    ∃ v, Executor.parseLiteral literal type = .ok v ∧ numberOf v = some n := by
  rcases htype with rfl | rfl
  · exact ⟨_, parseLiteral_int.mpr ⟨_, stoi_eq_some.mpr ⟨n, h, hrange, rfl⟩, rfl⟩,
      congrArg some (Int32.toInt_ofInt_of_le hrange.1 hrange.2)⟩
  · exact ⟨_, parseLiteral_datetime.mpr ⟨_, stoll_eq_some.mpr ⟨n, h, hrange, rfl⟩, rfl⟩,
      congrArg some (Int64.toInt_ofInt_of_le hrange.1 hrange.2)⟩

/-- A value that was read is the one written just when nothing stood around
the number. -/
theorem asWritten_iff (htype : Integral type) (h : Executor.parseLiteral literal type = .ok v) :
    AsWritten literal v ↔ Unpadded literal type := by
  obtain ⟨m, hm, hrange, hv⟩ := leadingInt_of_parseLiteral htype h
  constructor
  · rintro ⟨n, -, hn⟩ k hk
    exact absurd hk hn.not_padded
  · intro hfree
    rcases Bytes.leadingInt_eq_some.mp hm with hdec | hpad
    · exact ⟨m, hv, hdec⟩
    · exact absurd hrange (hfree m hpad)

theorem takenAsWritten_iff (htype : Integral type) :
    TakenAsWritten literal type ↔ Unpadded literal type := by
  constructor
  · intro htaken n hpad hrange
    have hread := parseLiteral_of_leadingInt htype
      (Bytes.leadingInt_eq_some.mpr (.inr hpad)) hrange
    exact ((htaken n).mp hread).1.not_padded hpad
  · intro hfree n
    constructor
    · rintro ⟨v, hv, hn⟩
      obtain ⟨m, hm, hrange, hnum⟩ := leadingInt_of_parseLiteral htype hv
      obtain rfl := Option.some.inj (hn.symm.trans hnum)
      obtain ⟨k, hk, hdec⟩ := (asWritten_iff htype hv).mpr hfree
      obtain rfl := Option.some.inj (hn.symm.trans hk)
      exact ⟨hdec, hrange⟩
    · rintro ⟨hdec, hrange⟩
      exact parseLiteral_of_leadingInt htype (Bytes.leadingInt_eq_some.mpr (.inl hdec)) hrange

/-! ## Statements -/

/-- The row of a tuple has the numbers written in the tuple. -/
theorem parseTuple_written_iff {schema : Schema} {tuple : List Bytes} {row : Row}
    (h : Executor.parseTuple schema tuple = .ok row) :
    List.Forall₂ (fun p v => Integral p.2.type → AsWritten p.1 v) (tuple.zip schema.columns) row ↔
      ∀ p ∈ tuple.zip schema.columns, Integral p.2.type → Unpadded p.1 p.2.type := by
  rw [Executor.parseTuple] at h
  split at h
  · exact absurd h (by simp)
  · have hread := Outcome.mapM_eq_ok.mp h
    clear h
    generalize tuple.zip schema.columns = ps at hread ⊢
    induction hread with
    | nil => simp
    | @cons p v ps vs hp _ ih =>
        rw [List.forall₂_cons, List.forall_mem_cons]
        exact and_congr (forall_congr' fun htype => asWritten_iff htype hp) ih

/-- The value the rows of a table are compared with. -/
theorem scanTable_compares {now : Int64} {table : Table} {w : WhereClause} {rows : List Row}
    (h : Executor.scanTable now table (some w) = .ok (.ok rows)) :
    ∃ i c v, table.schema.findColumn (Bytes.toUpper w.column.column) = some i ∧
      table.schema.columns[i]? = some c ∧
      Executor.whereRows now table i (Executor.convertOp w.op) v = .ok rows ∧
      (Integral c.type → (AsWritten w.literal v ↔ Unpadded w.literal c.type)) := by
  rw [Executor.scanTable] at h
  split at h
  · exact absurd h (by simp)
  · next i hi =>
      obtain ⟨c, hc, h⟩ := Outcome.bind_eq_ok.mp h
      split at h
      · exact absurd h (by simp)
      · next v hv =>
          obtain ⟨found, hrows, h⟩ := Outcome.bind_eq_ok.mp h
          obtain rfl := Except.ok.inj (Except.ok.inj h)
          exact ⟨i, c, v, hi, cell_eq_ok.mp hc, hrows, fun htype => asWritten_iff htype hv⟩

/-- The value a pair of joined rows is compared with, if the literal is taken. -/
theorem passes_compares {j : Executor.JoinTables} {w : WhereClause} {leftRow rightRow : Row}
    {b : Bool} {side : Executor.Side} {i : Nat} {c : ColumnDef}
    (h : j.passes w leftRow rightRow = .ok b)
    (hfind : j.find (Bytes.toUpper w.column.table) (Bytes.toUpper w.column.column) =
      some (side, i))
    (hc : (Executor.JoinTables.pick side j.left j.right).columns[i]? = some c)
    (hv : Executor.parseLiteral w.literal c.type = .ok v) :
    (∃ actual, (Executor.JoinTables.pick side leftRow rightRow)[i]? = some actual ∧
      b = (Executor.convertOp w.op).holds actual v) ∧
      (Integral c.type → (AsWritten w.literal v ↔ Unpadded w.literal c.type)) := by
  refine ⟨?_, fun htype => asWritten_iff htype hv⟩
  rw [Executor.JoinTables.passes, hfind] at h
  obtain ⟨c₁, hc₁, h⟩ := Outcome.bind_eq_ok.mp h
  obtain rfl := Option.some.inj ((cell_eq_ok.mp hc₁).symm.trans hc)
  rw [hv] at h
  obtain ⟨actual, ha, h⟩ := Outcome.bind_eq_ok.mp h
  exact ⟨actual, cell_eq_ok.mp ha, (Except.ok.inj h).symm⟩

/-- A literal is taken as written just when it is not a number of the type
with something around it. That is so for the tuples an `INSERT` stores, for
the value a query on one table compares with, and for the one a join does. -/
theorem numbers_as_written_iff :
    (∀ literal type, Integral type → (TakenAsWritten literal type ↔ Unpadded literal type)) ∧
    (∀ (schema : Schema) tuple row, Executor.parseTuple schema tuple = .ok row →
      (List.Forall₂ (fun p v => Integral p.2.type → AsWritten p.1 v)
          (tuple.zip schema.columns) row ↔
        ∀ p ∈ tuple.zip schema.columns, Integral p.2.type → Unpadded p.1 p.2.type)) ∧
    (∀ now table w rows, Executor.scanTable now table (some w) = .ok (.ok rows) →
      ∃ i c v, table.schema.findColumn (Bytes.toUpper w.column.column) = some i ∧
        table.schema.columns[i]? = some c ∧
        Executor.whereRows now table i (Executor.convertOp w.op) v = .ok rows ∧
        (Integral c.type → (AsWritten w.literal v ↔ Unpadded w.literal c.type))) ∧
    ∀ (j : Executor.JoinTables) w leftRow rightRow b side i c v,
      j.passes w leftRow rightRow = .ok b →
      j.find (Bytes.toUpper w.column.table) (Bytes.toUpper w.column.column) = some (side, i) →
      (Executor.JoinTables.pick side j.left j.right).columns[i]? = some c →
      Executor.parseLiteral w.literal c.type = .ok v →
        (∃ actual, (Executor.JoinTables.pick side leftRow rightRow)[i]? = some actual ∧
          b = (Executor.convertOp w.op).holds actual v) ∧
        (Integral c.type → (AsWritten w.literal v ↔ Unpadded w.literal c.type)) :=
  ⟨fun _ _ => takenAsWritten_iff, fun _ _ _ => parseTuple_written_iff,
    fun _ _ _ _ => scanTable_compares, fun _ _ _ _ _ _ _ _ _ => passes_compares⟩

end Literals

section Runs

attribute [local instance] noDoubles

theorem numbers_as_written_minus : TakenAsWritten (Bytes.lit "-12") .int := by
  refine (numbers_as_written_iff.1 _ _ (.inl rfl)).mpr fun n hpad => ?_
  have hdec : Bytes.Decimal (Bytes.lit "-12") (-12) :=
    ⟨[45], Bytes.lit "12", by decide, by decide, List.all_eq_true.mp (by decide),
      .inl ⟨rfl, by decide⟩⟩
  exact absurd hpad hdec.not_padded

/-- `1.5` is stored in an `INT` column as 1. -/
theorem parseLiteral_cuts_fraction :
    Executor.parseLiteral (Bytes.lit "1.5") .int = .ok (.int 1) ∧
      (∀ n, ¬ Bytes.Decimal (Bytes.lit "1.5") n) ∧
      ¬ TakenAsWritten (Bytes.lit "1.5") .int := by
  have hread : Executor.parseLiteral (Bytes.lit "1.5") .int = .ok (.int 1) := by decide +kernel
  have hnot : ∀ n, ¬ Bytes.Decimal (Bytes.lit "1.5") n := by
    intro n hdec
    obtain ⟨c, cs, hcs, -, hdigits⟩ := hdec.head
    obtain ⟨-, rfl⟩ := List.cons.inj hcs
    exact absurd (hdigits 46 (by decide)) (by decide)
  refine ⟨hread, hnot, fun htaken => ?_⟩
  exact hnot 1 ((htaken 1).mp ⟨_, hread, by decide⟩).1

end Runs

end FlexQL.Proofs
