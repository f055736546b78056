import FlexQL.Proofs.BPTreeMap
import FlexQL.Proofs.Layout

/-!
# A table refines its list of records

`Rep t rs` ties the bytes of a table to the records it stands for: every row
pointer has its record behind it, the blocks of different rows do not
overlap, and the index is the one the rows build in order. Inserting appends
a record and the scans read the records back.
-/

namespace FlexQL.Proofs

open Lib FlexQL.Ref FlexQL.Spec

/-! ## One row -/

/-- The columns from `off` on hold the values. -/
def ColumnsAt (a : Arena) (p : Ptr) : Nat → List ColumnDef → Row → Prop
  | _, [], [] => True
  | off, c :: cs, v :: vs => Accepts c v ∧ Holds a p off (encodeValue c.type v) ∧
      ColumnsAt a p (off + c.storageSize.toNat) cs vs
  | _, _, _ => False

/-- The record is stored behind the pointer. -/
structure RowAt (s : Schema) (a : Arena) (p : Ptr) (r : Record) : Prop where
  values : ColumnsAt a p 0 s.columns r.values
  expiry : Holds a p (extent s.columns) (Bytes.le r.expiry.toUInt64.toNat 8)
  valid : Holds a p (extent s.columns + 8) [if r.valid then 1 else 0]

section Row

variable {s : Schema} {a a' : Arena} {p : Ptr} {r : Record}

/-- Memory that agrees on the range of the columns holds the same values. -/
theorem ColumnsAt.imp {cols : List ColumnDef} {vs : Row} {off : Nat}
    (h : ColumnsAt a p off cols vs)
    (hkeep : ∀ o w, off ≤ o → o + w.length ≤ off + extent cols →
      Holds a p o w → Holds a' p o w) : ColumnsAt a' p off cols vs := by
  induction cols generalizing vs off with
  | nil =>
      cases vs with
      | nil => trivial
      | cons v vs => exact h
  | cons c cs ih =>
      cases vs with
      | nil => exact h
      | cons v vs =>
          obtain ⟨hacc, hv, hvs⟩ := h
          have hlen := hacc.encode_length
          rw [extent_cons] at hkeep
          refine ⟨hacc, hkeep off _ (Nat.le_refl _) (by omega) hv, ih hvs ?_⟩
          intro o w hlo hhi
          exact hkeep o w (by omega) (by omega)

theorem RowAt.imp (h : RowAt s a p r)
    (hkeep : ∀ o w, o + w.length ≤ extent s.columns + 9 → Holds a p o w → Holds a' p o w) :
    RowAt s a' p r := by
  refine ⟨h.values.imp fun o w _ hhi => hkeep o w (by omega), hkeep _ _ ?_ h.expiry,
    hkeep _ _ ?_ h.valid⟩
  · rw [Bytes.le_length]
    omega
  · rw [List.length_singleton]

/-- A change outside the block of the row. -/
theorem RowAt.changed {q : Ptr} {lo hi : Nat} (h : RowAt s a p r) (hc : Changed a a' q lo hi)
    (hout : Outside p 0 (extent s.columns + 9) q lo hi) : RowAt s a' p r := by
  refine h.imp fun o w hle => hc.frame p o w ?_
  rcases hout with hout | hout | hout
  · exact .inl hout
  · exact .inr (.inl (by omega))
  · exact .inr (.inr (by omega))

theorem ColumnsAt.accepts {cols : List ColumnDef} {vs : Row} {off : Nat}
    (h : ColumnsAt a p off cols vs) : List.Forall₂ Accepts cols vs := by
  induction cols generalizing vs off with
  | nil =>
      cases vs with
      | nil => exact .nil
      | cons v vs => exact h.elim
  | cons c cs ih =>
      cases vs with
      | nil => exact h.elim
      | cons v vs => exact .cons h.1 (ih h.2.2)

theorem ColumnsAt.get {cols : List ColumnDef} {vs : Row} {off i : Nat} {c : ColumnDef}
    (h : ColumnsAt a p off cols vs) (hc : cols[i]? = some c) :
    ∃ v, vs[i]? = some v ∧ Accepts c v ∧
      Holds a p (off + extent (cols.take i)) (encodeValue c.type v) := by
  induction cols generalizing vs off i with
  | nil => simp at hc
  | cons d cs ih =>
      cases vs with
      | nil => exact h.elim
      | cons v vs =>
          cases i with
          | zero =>
              obtain rfl : d = c := by simpa using hc
              exact ⟨v, rfl, h.1, by simpa [extent] using h.2.1⟩
          | succ i =>
              obtain ⟨w, hw, hacc, hold⟩ := ih h.2.2 (by simpa using hc)
              refine ⟨w, by simpa using hw, hacc, ?_⟩
              rw [List.take_succ_cons, extent_cons, ← Nat.add_assoc]
              exact hold

/-! Reading the row back. -/

variable {t : Table}

theorem RowAt.readValue (h : RowAt t.schema t.arena p r) (hf : Fits t.schema) {i : Nat}
    (hi : i < t.schema.columns.length) :
    ∃ v, r.values[i]? = some v ∧ t.readValue p i = .ok v := by
  have hcol := List.getElem?_eq_getElem hi
  obtain ⟨v, hv, hacc, hold⟩ := h.values.get hcol
  refine ⟨v, hv, readValue_of_holds hcol hacc ?_⟩
  rw [hf.columnOffset hi]
  rwa [Nat.zero_add] at hold

theorem RowAt.length_eq (h : RowAt s a p r) : r.values.length = s.columns.length :=
  h.values.accepts.length_eq.symm

theorem RowAt.readRow (h : RowAt t.schema t.arena p r) (hf : Fits t.schema) :
    t.readRow p = .ok r.values := by
  rw [Table.readRow, Table.readRowProjected, Outcome.mapM_eq_ok, List.forall₂_iff_get]
  refine ⟨by simp [h.length_eq], fun i hi hi' => ?_⟩
  obtain ⟨v, hv, hread⟩ := h.readValue hf (i := i) (by simpa using hi)
  rw [List.get_eq_getElem, List.get_eq_getElem, List.getElem_range, hread]
  rw [List.getElem?_eq_getElem hi'] at hv
  exact congrArg _ (Option.some.inj hv).symm

/-- Reading some of the columns. -/
theorem RowAt.readSelected (h : RowAt t.schema t.arena p r) (hf : Fits t.schema)
    {cols : List Nat} (hcols : ∀ i ∈ cols, i < t.schema.columns.length) :
    t.readSelected cols p = .ok (project cols r.values) := by
  rw [Table.readSelected, project]
  split
  · exact h.readRow hf
  · rw [Table.readRowProjected, Outcome.mapM_eq_ok, List.forall₂_map_right_iff,
      List.forall₂_same]
    intro i hi
    obtain ⟨v, hv, hread⟩ := h.readValue hf (hcols i hi)
    rw [hread, List.getD_eq_getElem?_getD, hv]
    rfl

theorem RowAt.readExpiry (h : RowAt t.schema t.arena p r) (hf : Fits t.schema) :
    t.readExpiry p = .ok r.expiry := by
  have hold := h.expiry
  rw [Holds, Bytes.le_length] at hold
  rw [Table.readExpiry, hf.expiryOffset, hold, Outcome.bind_ok, int64OfBytes,
    Bytes.leNat_le_of_lt (UInt64.toNat_lt _)]
  simp

theorem RowAt.readValid (h : RowAt t.schema t.arena p r) (hf : Fits t.schema) :
    t.readValid p = .ok (if r.valid then 1 else 0) := by
  have hold : t.arena.read p (extent t.schema.columns + 8) 1
      = .ok [if r.valid then 1 else 0] := h.valid
  rw [Table.readValid, hf.validOffset, hold, Outcome.bind_ok]
  cases r.valid <;> rfl

theorem RowAt.isRowValid (h : RowAt t.schema t.arena p r) (hf : Fits t.schema) (now : Int64) :
    t.isRowValid now p = .ok (r.live now) := by
  rw [Table.isRowValid, h.readValid hf, Outcome.bind_ok, h.readExpiry hf]
  cases hv : r.valid <;> simp [Record.live, hv]

/-! Writing it. -/

theorem writeColumns_spec (hf : Fits s) {cs : List ColumnDef} {vs : Row}
    {done : List ColumnDef} (hcols : s.columns = done ++ cs) (hacc : List.Forall₂ Accepts cs vs)
    (hb : InBounds a p 0 (extent s.columns + 9)) :
    ∃ a', Table.writeColumns s p done.length cs vs a = .ok a' ∧
      ColumnsAt a' p (extent done) cs vs ∧
      Changed a a' p (extent done) (extent s.columns) := by
  induction hacc generalizing done a with
  | nil => exact ⟨a, rfl, trivial, .refl _ _ _ _⟩
  | @cons c v cs vs hc _ ih =>
      have hlen := hc.encode_length
      have hext : extent s.columns = extent done + (c.storageSize.toNat + extent cs) := by
        rw [hcols, extent_append, extent_cons]
      have hoff : (s.columnOffset done.length).toNat = extent done := by
        rw [hf.columnOffset (by simp [hcols]), hcols, List.take_left]
      have hin : InBounds a p (extent done) (encodeValue c.type v).length :=
        ⟨hb.chunk, by have := hb.cap; omega⟩
      obtain ⟨a₁, hw, hold, hch⟩ := write_spec hin
      have hcols' : s.columns = (done ++ [c]) ++ cs := by
        rw [hcols, List.append_assoc, List.singleton_append]
      obtain ⟨a₂, hrun, hat, hch'⟩ := ih hcols' (hch.bounds _ _ _ hb)
      have hdone : extent (done ++ [c]) = extent done + c.storageSize.toNat := by
        simp [extent]
      rw [hdone] at hat hch'
      refine ⟨a₂, ?_, ⟨hc, hch'.frame _ _ _ (.inr (.inl (by omega))) hold, hat⟩,
        (hch.trans hch').widen (by omega) (by omega)⟩
      rw [Table.writeColumns, hoff, hw, Outcome.bind_ok, ← hrun, List.length_append]
      rfl

theorem writeRow_spec (hf : Fits t.schema) {vs : Row}
    (hacc : List.Forall₂ Accepts t.schema.columns vs)
    (hb : InBounds t.arena p 0 (extent t.schema.columns + 9)) (expiry : Int64) :
    ∃ a, t.writeRow p vs expiry = .ok { t with arena := a } ∧
      RowAt t.schema a p ⟨vs, expiry, true⟩ ∧
      Changed t.arena a p 0 (extent t.schema.columns + 9) := by
  have hcols : t.schema.columns = [] ++ t.schema.columns := rfl
  obtain ⟨a₁, hrun, hat, hch⟩ := writeColumns_spec hf hcols hacc hb
  rw [extent_nil] at hat hch
  have hin : InBounds a₁ p (extent t.schema.columns)
      (Bytes.le expiry.toUInt64.toNat 8).length := by
    have hb₁ := hch.bounds _ _ _ hb
    exact ⟨hb₁.chunk, by have := hb₁.cap; rw [Bytes.le_length]; omega⟩
  obtain ⟨a₂, hw₂, hold₂, hch₂⟩ := write_spec hin
  have hin' : InBounds a₂ p (extent t.schema.columns + 8) [(1 : UInt8)].length := by
    have hb₂ := hch₂.bounds _ _ _ (hch.bounds _ _ _ hb)
    exact ⟨hb₂.chunk, by have := hb₂.cap; rw [List.length_singleton]; omega⟩
  obtain ⟨a₃, hw₃, hold₃, hch₃⟩ := write_spec hin'
  rw [Bytes.le_length] at hch₂
  rw [List.length_singleton] at hch₃
  refine ⟨a₃, ?_, ⟨?_, ?_, hold₃⟩, ((hch.trans hch₂).trans hch₃).widen (by omega) (by omega)⟩
  · rw [Table.writeRow]
    rw [List.length_nil] at hrun
    rw [hrun, Outcome.bind_ok, hf.expiryOffset, hw₂, Outcome.bind_ok, hf.validOffset, hw₃]
    rfl
  · refine hat.imp fun o w _ hhi hold => hch₃.frame _ _ _ (.inr (.inl ?_))
      (hch₂.frame _ _ _ (.inr (.inl ?_)) hold)
    · omega
    · omega
  · exact hch₃.frame _ _ _ (.inr (.inl (by rw [Bytes.le_length]; omega))) hold₂

end Row

/-! ## The whole table -/

/-- The table stores the records. -/
structure Rep (t : Table) (rs : List Record) : Prop where
  fits : Fits t.schema
  rowSize : t.cachedRowSize = t.schema.totalRowSize
  blocks : Blocks t.arena (extent t.schema.columns + 9) t.rows
  rows : List.Forall₂ (RowAt t.schema t.arena) t.rows rs
  index : buildIndex t.schema (rs.map (·.values)) = .ok t.pkIndex
  count : t.rowCount = UInt64.ofNat (rs.countP (·.valid))

theorem insertAll_append (t : BPTree) (a b : List (Value × Nat)) :
    t.insertAll (a ++ b) = t.insertAll a >>= fun t => t.insertAll b := by
  induction a generalizing t with
  | nil => rfl
  | cons op a ih =>
      rw [List.cons_append, BPTree.insertAll, BPTree.insertAll]
      cases t.insert op.1 op.2 with
      | error e => rfl
      | ok r => exact ih r.1

theorem indexOps_append (rows : List Row) (row : Row) :
    indexOps (rows ++ [row]) = indexOps rows ++ [(key row, rows.length)] := by
  simp [indexOps, List.zipIdx_append]

/-- The index over one more row is the old one after one more insertion. -/
theorem buildIndex_append (s : Schema) (rows : List Row) (row : Row) :
    buildIndex s (rows ++ [row]) = buildIndex s rows >>= fun index =>
      Prod.fst <$> index.insert (key row) rows.length := by
  rw [buildIndex, indexOps_append, insertAll_append]
  rfl

theorem rep_new (name : Bytes) {s : Schema} (hf : Fits s) (ttl : UInt32) :
    ∃ t, Table.new name s ttl = .ok t ∧ Rep t [] ∧ t.name = name ∧ t.schema = s ∧
      t.ttlSeconds = ttl := by
  obtain ⟨c, cs, hcols⟩ := List.exists_cons_of_ne_nil hf.pk
  have hpk : s.pkColumn = .ok c := by
    rw [Schema.pkColumn, hf.toBuilt.pkIndex, hcols]
    rfl
  refine ⟨_, by rw [Table.new, hpk, Outcome.bind_ok], ?_, rfl, rfl, rfl⟩
  refine ⟨hf, rfl, blocks_new (by decide), .nil, ?_, rfl⟩
  show Except.ok (BPTree.new (pkType s)) = _
  rw [pkType, hcols]
  rfl

section Insert

variable {t : Table} {rs : List Record}

/-- A row that fails the check leaves the table alone. -/
theorem insert_rejected {vs : Row} {e : Bytes} (he : t.schema.validateRow vs = some e)
    (now : Int64) : t.insert now vs = .ok (t, some e) := by
  rw [Table.insert, he]

/-- The table with one more row. -/
def pushRow (t : Table) (a : Arena) (p : Ptr) (index : BPTree) : Table :=
  { t with
    arena := a
    rows := t.rows ++ [p]
    pkIndex := index
    rowCount := t.rowCount + 1 }

/-- A row that passes it is stored behind a new pointer, and then only the
index decides whether the call returns. -/
theorem Rep.insert_accepted (h : Rep t rs) {vs : Row} (hv : t.schema.validateRow vs = none)
    (now : Int64) : ∃ a p,
      (t.insert now vs = do
        let (index, _) ← t.pkIndex.insert (key vs) rs.length
        .ok (pushRow t a p index, none)) ∧
      ∀ index, buildIndex t.schema (rs.map (·.values) ++ [vs]) = .ok index →
        Rep (pushRow t a p index) (rs ++ [⟨vs, expiryAt t.ttlSeconds now, true⟩]) := by
  have hacc := validateRow_eq_none.mp hv
  have hsize : t.cachedRowSize.toNat = extent t.schema.columns + 9 := by
    rw [h.rowSize, h.fits.totalRowSize]
  obtain ⟨a, p, halloc, hblocks, hkeep⟩ := allocate_spec h.blocks (by omega)
    (Nat.le_of_lt h.fits.size)
  obtain ⟨a', hwrite, hrow, hch⟩ := writeRow_spec (t := { t with arena := a }) h.fits hacc
    (hblocks.inside p (by simp)) (expiryAt t.ttlSeconds now)
  refine ⟨a', p, ?_, fun index hindex => ⟨h.fits, h.rowSize, hblocks.changed hch, ?_, ?_, ?_⟩⟩
  · obtain ⟨v, vs, rfl⟩ : ∃ v vs', vs = v :: vs' :=
      List.exists_cons_of_ne_nil fun hnil => h.fits.pk (by simpa [hnil] using hacc)
    rw [Table.insert, hv]
    simp only [hsize, halloc, Outcome.bind_ok]
    rw [show (if 0 < t.ttlSeconds then now + t.ttlSeconds.toUInt64.toInt64 else 0)
      = expiryAt t.ttlSeconds now from rfl, hwrite]
    simp only [Outcome.bind_ok, h.fits.toBuilt.pkIndex, List.getElem?_cons_zero,
      h.rows.length_eq]
    rfl
  · refine List.rel_append ?_ (.cons hrow .nil)
    have hout := (List.pairwise_append.mp hblocks.apart).2.2
    refine List.forall₂_iff_get.mpr ⟨h.rows.length_eq, fun i hi hi' => ?_⟩
    have hold := (List.forall₂_iff_get.mp h.rows).2 i hi hi'
    exact (hold.imp fun o w _ hw => hkeep _ o w hw).changed hch
      (hout _ (List.get_mem _ _) p (by simp))
  · rw [List.map_append]
    exact hindex
  · show t.rowCount + 1 = _
    rw [h.count, List.countP_append]
    simp

/-- What a successful insertion leaves behind. -/
theorem Rep.insert_ok (h : Rep t rs) {t' : Table} {vs : Row} {now : Int64}
    (hrun : t.insert now vs = .ok (t', none)) :
    Rep t' (rs ++ [recordOf t.ttlSeconds (now, vs)]) ∧ t.schema.validateRow vs = none ∧
      t'.name = t.name ∧ t'.schema = t.schema ∧ t'.ttlSeconds = t.ttlSeconds := by
  cases hv : t.schema.validateRow vs with
  | some e =>
      rw [insert_rejected hv] at hrun
      exact absurd hrun (by simp)
  | none =>
      obtain ⟨a, p, hins, hrep⟩ := h.insert_accepted hv now
      rw [hins] at hrun
      obtain ⟨⟨index, old⟩, hindex, hrun⟩ := Outcome.bind_eq_ok.mp hrun
      obtain ⟨rfl, _⟩ := Prod.mk.inj (Except.ok.inj hrun)
      refine ⟨hrep index ?_, rfl, rfl, rfl, rfl⟩
      rw [buildIndex_append, h.index, Outcome.bind_ok, List.length_map, hindex]
      rfl

end Insert

/-! ## Scans -/

/-- A scan over pointers is a filter over what they stand for. -/
theorem scanRows_spec {β : Type} {keep : Ptr → Outcome Bool} {read : Ptr → Outcome Row}
    {k : β → Bool} {f : β → Row} {ps : List Ptr} {rs : List β}
    (h : List.Forall₂ (fun p r => keep p = .ok (k r) ∧ read p = .ok (f r)) ps rs) :
    Table.scanRows keep read ps = .ok ((rs.filter k).map f) := by
  induction h with
  | nil => rfl
  | @cons p r ps rs hp _ ih =>
      rw [Table.scanRows, hp.1, Outcome.bind_ok, hp.2, Outcome.bind_ok, ih]
      cases hk : k r <;> simp [hk]

/-- A scan reads some of the pointers, in their order. -/
theorem scanRows_ok {keep : Ptr → Outcome Bool} {read : Ptr → Outcome Row} {ps : List Ptr}
    {rows : List Row} (h : Table.scanRows keep read ps = .ok rows) :
    ∃ qs, List.Sublist qs ps ∧ List.Forall₂ (fun q row => read q = .ok row) qs rows := by
  induction ps generalizing rows with
  | nil =>
      obtain rfl := Except.ok.inj h
      exact ⟨[], .slnil, .nil⟩
  | cons p ps ih =>
      rw [Table.scanRows] at h
      obtain ⟨kept, -, h⟩ := Outcome.bind_eq_ok.mp h
      split at h
      · obtain ⟨row, hrow, h⟩ := Outcome.bind_eq_ok.mp h
        obtain ⟨rest, hrun, h⟩ := Outcome.bind_eq_ok.mp h
        obtain rfl := Except.ok.inj h
        obtain ⟨qs, hsub, hread⟩ := ih hrun
        exact ⟨p :: qs, hsub.cons_cons p, .cons hrow hread⟩
      · obtain ⟨qs, hsub, hread⟩ := ih h
        exact ⟨qs, hsub.cons p, hread⟩

theorem readRow_length {t : Table} {p : Ptr} {row : Row} (h : t.readRow p = .ok row) :
    row.length = t.schema.columns.length := by
  rw [Table.readRow, Table.readRowProjected, Outcome.mapM_eq_ok] at h
  rw [← h.length_eq, List.length_range]

section Scan

variable {t : Table} {rs : List Record}

theorem Rep.scanAll (h : Rep t rs) (now : Int64) :
    t.scanAll now = .ok ((rs.filter (·.live now)).map (·.values)) :=
  scanRows_spec (h.rows.imp fun _ _ hr => ⟨hr.isRowValid h.fits now, hr.readRow h.fits⟩)

/-- What the range scan of the index collects for a row id. -/
theorem Rep.collect_one (h : Rep t rs) (now : Int64) {cols : List Nat}
    (hcols : ∀ i ∈ cols, i < t.schema.columns.length) (rows : List Row) (i : Nat) :
    t.collect now cols (.ok rows) i = (.ok (rows ++
      ((rs[i]?.filter (·.live now)).map fun r => project cols r.values).toList), true) := by
  rw [Table.collect]
  by_cases hi : i < rs.length
  · have hi' : i < t.rows.length := by rw [h.rows.length_eq]; exact hi
    have hr : RowAt t.schema t.arena t.rows[i] rs[i] :=
      (List.forall₂_iff_get.mp h.rows).2 i hi' hi
    simp only [List.getElem?_eq_getElem hi, List.getElem?_eq_getElem hi', Outcome.bind_ok,
      hr.isRowValid h.fits now, hr.readSelected h.fits hcols]
    cases hl : rs[i].live now <;> simp [Option.filter_some, hl]
  · have hi' : ¬ i < t.rows.length := by rw [h.rows.length_eq]; exact hi
    simp [List.getElem?_eq_none (Nat.not_lt.mp hi), List.getElem?_eq_none (Nat.not_lt.mp hi')]

end Scan

end FlexQL.Proofs
