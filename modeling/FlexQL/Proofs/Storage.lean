import FlexQL.Proofs.Reach
import FlexQL.Spec.Storage

/-!
# A row is stored in a block of its own

Every field of a row is written to its own share of the row's block, and no
block is handed out twice. So a stored row is read back as it was inserted,
whatever is inserted after it.
-/

namespace FlexQL.Proofs

open Lib FlexQL.Ref FlexQL.Spec

/-! ## Fields -/

section Fields

variable {s : Schema}

theorem fieldStart_column {i : Nat} (hi : i ≤ s.columns.length) :
    fieldStart s i = extent (s.columns.take i) := by
  rw [fieldStart, fieldSizes, List.take_append_of_le_length (by rwa [List.length_map]),
    ← List.map_take, extent]

theorem fieldStart_behind (k : Nat) :
    fieldStart s (s.columns.length + k) = extent s.columns + ([8, 1].take k).sum := by
  have hlen : s.columns.length = (s.columns.map fun c => c.storageSize.toNat).length :=
    (List.length_map _).symm
  rw [fieldStart, fieldSizes, hlen, List.take_length_add_append, List.sum_append, extent]

/-- The writes of a row are those of its columns, and they are in order. -/
theorem writeColumns_eq (p : Ptr) {cols : List ColumnDef} {row : Row}
    (hlen : row.length = cols.length) (i : Nat) (a : Arena) :
    Table.writeColumns s p i cols row a = writeAll p (columnWrites s i cols row) a := by
  induction cols generalizing row i a with
  | nil => rfl
  | cons c cs ih =>
      cases row with
      | nil => exact absurd hlen (by simp)
      | cons v vs =>
          rw [Table.writeColumns, columnWrites, writeAll]
          refine congrArg _ (funext fun a' => ?_)
          exact ih (Nat.succ.inj hlen) (i + 1) a'

theorem writeAll_append (p : Ptr) (ws ws' : List (Nat × Bytes)) (a : Arena) :
    writeAll p (ws ++ ws') a = writeAll p ws a >>= writeAll p ws' := by
  induction ws generalizing a with
  | nil => rfl
  | cons w ws ih =>
      rw [List.cons_append, writeAll, writeAll]
      cases a.write p w.1 w.2 with
      | error e => rfl
      | ok a' => exact ih a'

theorem writeRow_eq {t : Table} {row : Row} (hlen : row.length = t.schema.columns.length)
    (p : Ptr) (expiry : Int64) : t.writeRow p row expiry =
      (writeAll p (rowWrites t.schema row expiry) t.arena >>= fun a =>
        .ok { t with arena := a }) := by
  rw [Table.writeRow, writeColumns_eq p hlen, rowWrites, writeAll_append]
  cases writeAll p (columnWrites t.schema 0 t.schema.columns row) t.arena with
  | error e => rfl
  | ok a =>
      simp only [Outcome.bind_ok, writeAll]
      cases a.write p t.schema.expiryOffset.toNat (Bytes.le expiry.toUInt64.toNat 8) with
      | error e => rfl
      | ok a₁ =>
          simp only [Outcome.bind_ok]
          cases a₁.write p t.schema.validOffset.toNat [1] <;> rfl

theorem columnWrites_getElem? {cols : List ColumnDef} {row : Row} {i j : Nat} {w : Nat × Bytes}
    (h : (columnWrites s i cols row)[j]? = some w) : ∃ c v, cols[j]? = some c ∧
      row[j]? = some v ∧ w = ((s.columnOffset (i + j)).toNat, encodeValue c.type v) := by
  induction cols generalizing row i j with
  | nil => exact absurd h (by simp [columnWrites])
  | cons c cs ih =>
      cases row with
      | nil => exact absurd h (by simp [columnWrites])
      | cons v vs =>
          cases j with
          | zero => exact ⟨c, v, rfl, rfl, (Option.some.inj h).symm⟩
          | succ j =>
              obtain ⟨c', v', hc, hv, rfl⟩ := ih h
              exact ⟨c', v', hc, hv, by rw [Nat.add_right_comm, Nat.add_assoc]⟩

theorem columnWrites_length {cols : List ColumnDef} {row : Row}
    (hlen : row.length = cols.length) (i : Nat) :
    (columnWrites s i cols row).length = cols.length := by
  induction cols generalizing row i with
  | nil => rfl
  | cons c cs ih =>
      cases row with
      | nil => exact absurd hlen (by simp)
      | cons v vs => exact congrArg Nat.succ (ih (Nat.succ.inj hlen) (i + 1))

/-- Every write of a row stays in its own field. -/
theorem rowWrites_field (hf : Fits s) {row : Row} (hrow : List.Forall₂ Accepts s.columns row)
    {expiry : Int64} {i : Nat} {w : Nat × Bytes} (h : (rowWrites s row expiry)[i]? = some w) :
    fieldStart s i ≤ w.1 ∧ w.1 + w.2.length ≤ fieldStart s (i + 1) := by
  have hlen := columnWrites_length (s := s) hrow.length_eq.symm 0
  rw [rowWrites] at h
  by_cases hi : i < s.columns.length
  · rw [List.getElem?_append_left (by omega)] at h
    obtain ⟨c, v, hc, hv, rfl⟩ := columnWrites_getElem? h
    obtain ⟨hi', rfl⟩ := List.getElem?_eq_some_iff.mp hc
    obtain ⟨hv', rfl⟩ := List.getElem?_eq_some_iff.mp hv
    rw [Nat.zero_add, fieldStart_column (Nat.le_of_lt hi), fieldStart_column hi,
      hf.columnOffset hi, extent_take_succ hc]
    exact ⟨Nat.le_refl _, Nat.add_le_add_left (hrow.get hi' hv').encode_length _⟩
  · obtain ⟨k, rfl⟩ := Nat.exists_eq_add_of_le (Nat.not_lt.mp hi)
    rw [List.getElem?_append_right (by omega), hlen, Nat.add_sub_cancel_left] at h
    rw [Nat.add_assoc, fieldStart_behind, fieldStart_behind]
    have hexp := hf.expiryOffset
    have hval := hf.validOffset
    match k with
    | 0 =>
        obtain rfl := Option.some.inj h
        simp [hexp]
    | 1 =>
        obtain rfl := Option.some.inj h
        simp [hval]
    | k + 2 => exact absurd h (by simp)

end Fields

/-! ## Insertions -/

section Insertions

variable {t t' : Table} {rs : List Record} {now : Int64} {row : Row}

/-- What storing a row does to the memory of a table: a new block is allocated
behind `p`, beside those of the other rows, each field is written to its share
of the block, and no byte outside it changes. -/
structure StoredAt (t : Table) (now : Int64) (row : Row) (t' : Table) (p : Ptr) : Prop where
  rows : t'.rows = t.rows ++ [p]
  apart : ∀ q ∈ t.rows, Outside q 0 t.schema.totalRowSize.toNat p 0 t.schema.totalRowSize.toNat
  writes : ∃ a, t.arena.allocate t.schema.totalRowSize.toNat = .ok (a, some p) ∧
    (∀ q off n w, t.arena.read q off n = .ok w → a.read q off n = .ok w) ∧
    writeAll p (rowWrites t.schema row (expiryAt t.ttlSeconds now)) a = .ok t'.arena
  fields : ∀ i w, (rowWrites t.schema row (expiryAt t.ttlSeconds now))[i]? = some w →
    fieldStart t.schema i ≤ w.1 ∧ w.1 + w.2.length ≤ fieldStart t.schema (i + 1)
  total : fieldStart t.schema (t.schema.columns.length + 2) = t.schema.totalRowSize.toNat
  frame : ∀ q off n w, Outside q off n p 0 t.schema.totalRowSize.toNat →
    t.arena.read q off n = .ok w → t'.arena.read q off n = .ok w

theorem read_length {a : Arena} {p : Ptr} {off n : Nat} {w : Bytes}
    (h : a.read p off n = .ok w) : w.length = n := by
  obtain ⟨c, -, h⟩ := Outcome.bind_eq_ok.mp h
  split at h
  · obtain rfl := Except.ok.inj h
    exact firstN_length _ _
  · exact absurd h nofun

/-- A read is what is held there. -/
theorem holds_of_read {a : Arena} {p : Ptr} {off n : Nat} {w : Bytes}
    (h : a.read p off n = .ok w) : Holds a p off w := by
  rw [Holds, read_length h]
  exact h

theorem Rep.storedAt (h : Rep t rs) (hrun : t.insert now row = .ok (t', none)) :
    ∃ p, StoredAt t now row t' p := by
  have hv := (h.insert_ok hrun).2.1
  have hacc := validateRow_eq_none.mp hv
  have hsize : t.cachedRowSize.toNat = t.schema.totalRowSize.toNat := by rw [h.rowSize]
  have htotal := h.fits.totalRowSize
  obtain ⟨a, p, halloc, hblocks, hkeep⟩ := allocate_spec h.blocks (by omega)
    (Nat.le_of_lt h.fits.size)
  obtain ⟨a', hwrite, -, hch⟩ := writeRow_spec (t := { t with arena := a }) h.fits hacc
    (hblocks.inside p (by simp)) (expiryAt t.ttlSeconds now)
  have hall : writeAll p (rowWrites t.schema row (expiryAt t.ttlSeconds now)) a = .ok a' := by
    have heq := (writeRow_eq (t := { t with arena := a }) hacc.length_eq.symm p _).symm.trans hwrite
    obtain ⟨a₁, hall, hk⟩ := Outcome.bind_eq_ok.mp heq
    obtain rfl : a₁ = a' := congrArg Table.arena (Except.ok.inj hk)
    exact hall
  rw [Table.insert, hv] at hrun
  simp only [hsize, htotal, halloc, Outcome.bind_ok] at hrun
  rw [show (if 0 < t.ttlSeconds then now + t.ttlSeconds.toUInt64.toInt64 else 0)
    = expiryAt t.ttlSeconds now from rfl, hwrite] at hrun
  simp only [Outcome.bind_ok] at hrun
  split at hrun
  · exact absurd hrun (by simp)
  · obtain ⟨⟨index, _⟩, -, hrun⟩ := Outcome.bind_eq_ok.mp hrun
    obtain ⟨rfl, -⟩ := Prod.mk.inj (Except.ok.inj hrun)
    refine ⟨p, rfl, ?_, ⟨a, ?_, ?_, hall⟩, fun i w => rowWrites_field h.fits hacc, ?_, ?_⟩
    · intro q hq
      rw [htotal]
      exact (List.pairwise_append.mp hblocks.apart).2.2 q hq p (List.mem_singleton_self p)
    · rw [htotal]
      exact halloc
    · intro q off n w hread
      rw [← read_length hread]
      exact hkeep q off w (holds_of_read hread)
    · rw [fieldStart_behind, htotal]
      rfl
    · intro q off n w hout hread
      rw [htotal, ← read_length hread] at hout
      rw [← read_length hread]
      exact hch.frame q off w hout (hkeep q off w (holds_of_read hread))

/-- A sequence of insertions runs through, and the table stores the rows that
pass the check. -/
theorem Rep.insertions (h : Rep t rs) (calls : List (Int64 × Row)) :
    ∃ t', runTable t (insertions calls) = .ok t' ∧ t'.schema = t.schema ∧
      t'.ttlSeconds = t.ttlSeconds ∧
      Rep t' (rs ++ (calls.filter fun c => t.schema.validateRow c.2 = none).map
        (recordOf t.ttlSeconds)) := by
  induction calls generalizing t rs with
  | nil => exact ⟨t, rfl, rfl, rfl, by simpa using h⟩
  | cons c calls ih =>
      rw [insertions, List.map_cons, runTable]
      cases hv : t.schema.validateRow c.2 with
      | some e =>
          rw [insert_rejected hv, Outcome.bind_ok, List.filter_cons_of_neg (by simp [hv])]
          exact ih h
      | none =>
          obtain ⟨t₁, hins, hrep, hs, httl⟩ := h.insert_stored hv c.1
          rw [hins, Outcome.bind_ok, List.filter_cons_of_pos (by simp [hv]), List.map_cons,
            List.append_cons, ← hs, ← httl]
          rw [← httl] at hrep
          exact ih hrep

end Insertions

/-- Whatever was inserted, accepted or not: every accepted row is read back as
it was inserted, and the next one goes to a block of its own or, if it is
refused, changes nothing. -/
theorem insertions_read_back (name : Bytes) {s : Schema} (hf : Fits s) (ttl : UInt32)
    (calls : List (Int64 × Row)) :
    ∃ t₀ t, Table.new name s ttl = .ok t₀ ∧ runTable t₀ (insertions calls) = .ok t ∧
      List.Forall₂ (fun p c => t.readRow p = .ok c.2 ∧ t.readExpiry p = .ok (expiryAt ttl c.1) ∧
        t.readValid p = .ok 1) t.rows (calls.filter fun c => s.validateRow c.2 = none) ∧
      ∀ now row,
        (∀ e, s.validateRow row = some e → t.insert now row = .ok (t, some e)) ∧
        (s.validateRow row = none →
          ∃ t' p, t.insert now row = .ok (t', none) ∧ StoredAt t now row t' p) := by
  obtain ⟨t₀, hnew, hrep₀, -, hs₀, httl₀⟩ := rep_new name hf ttl
  obtain ⟨t, hrun, hs, httl, hrep⟩ := hrep₀.insertions calls
  rw [List.nil_append] at hrep
  rw [hs₀] at hs
  refine ⟨t₀, t, hnew, hrun, ?_, fun now row => ⟨fun e he => ?_, fun hv => ?_⟩⟩
  · have hrows := List.forall₂_map_right_iff.mp hrep.rows
    rw [hs₀, httl₀] at hrows
    exact hrows.imp fun p c hat => ⟨hat.readRow hrep.fits, hat.readExpiry hrep.fits,
      hat.readValid hrep.fits⟩
  · exact insert_rejected (hs ▸ he) now
  · obtain ⟨t', hins, -⟩ := hrep.insert_stored (hs ▸ hv) now
    obtain ⟨p, hat⟩ := hrep.storedAt hins
    exact ⟨t', p, hins, hat⟩

/-- The second row has a value too few. -/
theorem insertions_read_back_pair : ∃ t₀ t p,
    Table.new (Bytes.lit "T") pairSchema 10 = .ok t₀ ∧
    runTable t₀ (insertions [(5, [.int 1, .int 2]), (6, [.int 3])]) = .ok t ∧ t.rows = [p] ∧
    t.readRow p = .ok [.int 1, .int 2] ∧ t.readExpiry p = .ok 15 ∧ t.readValid p = .ok 1 := by
  obtain ⟨t₀, t, hnew, hrun, hrows, -⟩ := insertions_read_back (Bytes.lit "T") pairSchema_fits 10
    [(5, [.int 1, .int 2]), (6, [.int 3])]
  have hone : ([(5, [.int 1, .int 2]), (6, [.int 3])] : List (Int64 × Row)).filter
      (fun c => pairSchema.validateRow c.2 = none) = [(5, [.int 1, .int 2])] := by decide
  rw [hone] at hrows
  obtain ⟨p, ps, hp, hps, hcons⟩ := List.forall₂_cons_right_iff.mp hrows
  obtain rfl := List.forall₂_nil_right_iff.mp hps
  exact ⟨t₀, t, p, hnew, hrun, hcons, hp⟩

end FlexQL.Proofs
