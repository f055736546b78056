import FlexQL.Proofs.Storage
import FlexQL.Proofs.TableRuns

/-!
# What sweeps do to a table, and what they do not

A row disappears from the scans when the clock passes its expiry, and a sweep
marks it later. The mark is what the sweep counts; no scan at the time of the
sweep or later tells whether it is there.
-/

namespace FlexQL.Proofs

open Lib FlexQL.Ref FlexQL.Spec

/-! ## Scans -/

section Scans

variable {t t' : Table} {later : Int64}

/-- The rows of the tables read alike at `later`. -/
structure SameReads (later : Int64) (t t' : Table) : Prop where
  schema : t'.schema = t.schema
  rows : t'.rows = t.rows
  index : t'.pkIndex = t.pkIndex
  valid : ∀ p ∈ t.rows, t'.isRowValid later p = t.isRowValid later p
  value : ∀ p ∈ t.rows, t'.readValue p = t.readValue p

theorem scanRows_congr {keep keep' : Ptr → Outcome Bool} {read read' : Ptr → Outcome Row}
    {ps : List Ptr} (h : ∀ p ∈ ps, keep' p = keep p ∧ read' p = read p) :
    Table.scanRows keep' read' ps = Table.scanRows keep read ps := by
  induction ps with
  | nil => rfl
  | cons p ps ih =>
      obtain ⟨hkeep, hread⟩ := h p List.mem_cons_self
      rw [Table.scanRows, Table.scanRows, hkeep, hread,
        ih fun q hq => h q (List.mem_cons_of_mem p hq)]

theorem SameReads.readRowProjected (h : SameReads later t t') {p : Ptr} (hp : p ∈ t.rows)
    (cols : List Nat) : t'.readRowProjected p cols = t.readRowProjected p cols := by
  rw [Table.readRowProjected, Table.readRowProjected, h.value p hp]

theorem SameReads.readRow (h : SameReads later t t') {p : Ptr} (hp : p ∈ t.rows) :
    t'.readRow p = t.readRow p := by
  rw [Table.readRow, Table.readRow, h.readRowProjected hp, h.schema]

theorem SameReads.readSelected (h : SameReads later t t') {p : Ptr} (hp : p ∈ t.rows)
    (cols : List Nat) : t'.readSelected cols p = t.readSelected cols p := by
  rw [Table.readSelected, Table.readSelected, h.readRow hp, h.readRowProjected hp]

theorem SameReads.indexRange (h : SameReads later t t') (op : CmpOp) (v : Value)
    (cols : List Nat) : t'.indexRange later op v cols = t.indexRange later op v cols := by
  have hcollect : t'.collect later cols = t.collect later cols := by
    funext results rowId
    rw [Table.collect, Table.collect, h.rows]
    cases hp : t.rows[rowId]? with
    | none => rfl
    | some p =>
        have hmem := List.mem_of_getElem? hp
        simp only [h.valid p hmem, h.readSelected hmem]
  simp only [Table.indexRange, hcollect, h.index]

/-- So no query tells them apart. -/
theorem SameReads.sameScans (h : SameReads later t t') : SameScans later t t' := by
  refine ⟨?_, fun colIdx op v cols => ?_, fun cols => ?_, h.indexRange⟩
  · rw [Table.scanAll, Table.scanAll, h.rows]
    exact scanRows_congr fun p hp => ⟨h.valid p hp, h.readRow hp⟩
  · rw [Table.scanWhere, Table.scanWhere, h.schema, h.indexRange, h.rows]
    congr 1
    refine scanRows_congr fun p hp => ⟨?_, h.readSelected hp cols⟩
    simp only [h.valid p hp, Table.compareValue, h.value p hp]
  · rw [Table.scanProjected, Table.scanProjected, h.rows]
    exact scanRows_congr fun p hp => ⟨h.valid p hp, h.readRowProjected hp cols⟩

end Scans

/-! ## One sweep -/

section Sweeps

variable {t t' : Table} {rs : List Record} {now later : Int64}

theorem live_sweep (r : Record) (h : now ≤ later) : (r.sweep now).live later = r.live later := by
  have hexp : (0 < r.expiry && r.expiry < now) = true →
      (0 < r.expiry && r.expiry < later) = true := by
    rw [Bool.and_eq_true, Bool.and_eq_true, decide_eq_true_iff, decide_eq_true_iff,
      decide_eq_true_iff]
    exact fun hx => ⟨hx.1, Int64.lt_of_lt_of_le hx.2 h⟩
  rw [Record.live, Record.live, Record.sweep]
  cases hl : r.live now with
  | true =>
      rw [Record.live, Bool.and_eq_true] at hl
      rw [hl.1]
  | false =>
      rw [Record.live, Bool.and_eq_false_iff, Bool.not_eq_false'] at hl
      rcases hl with hl | hl
      · rw [hl]
      · rw [hexp hl, Bool.not_true, Bool.and_false, Bool.and_false]

/-- A column of the row, or of no row at all. -/
theorem RowAt.readValue_congr {p : Ptr} {r r' : Record} (h : RowAt t.schema t.arena p r)
    (h' : RowAt t'.schema t'.arena p r') (hs : t'.schema = t.schema) (hf : Fits t.schema)
    (hv : r'.values = r.values) : t'.readValue p = t.readValue p := by
  funext i
  by_cases hi : i < t.schema.columns.length
  · obtain ⟨v, hget, hread⟩ := h.readValue hf hi
    obtain ⟨v', hget', hread'⟩ := h'.readValue (hs ▸ hf) (i := i) (by rw [hs]; exact hi)
    rw [hv, hget] at hget'
    rw [hread, hread', Option.some.inj hget']
  · have hnone : t.schema.columns[i]? = none := List.getElem?_eq_none (Nat.not_lt.mp hi)
    rw [Table.readValue, Table.readValue, hs, hnone]

/-- A sweep is not seen from then on. -/
theorem Rep.sameReads (h : Rep t rs) {n : Nat} (hrun : t.cleanupExpired now = .ok (t', n))
    (hlater : now ≤ later) : SameReads later t t' := by
  obtain ⟨t₁, hrun₁, hrep', -⟩ := h.cleanupExpired now
  obtain ⟨rfl, -⟩ := Prod.mk.inj (Except.ok.inj (hrun₁.symm.trans hrun))
  obtain ⟨hs, hrows, hindex⟩ := cleanupExpired_frame hrun
  have hboth : ∀ p ∈ t.rows, ∃ r, RowAt t.schema t.arena p r ∧
      RowAt t₁.schema t₁.arena p (r.sweep now) := by
    intro p hp
    obtain ⟨i, hi, rfl⟩ := List.getElem_of_mem hp
    have hi' : i < rs.length := by rw [← h.rows.length_eq]; exact hi
    have hrow' := List.forall₂_map_right_iff.mp hrep'.rows
    rw [hrows] at hrow'
    exact ⟨rs[i], h.rows.get hi hi', hrow'.get hi hi'⟩
  refine ⟨hs, hrows, hindex, fun p hp => ?_, fun p hp => ?_⟩
  · obtain ⟨r, hr, hr'⟩ := hboth p hp
    rw [hr.isRowValid h.fits, hr'.isRowValid hrep'.fits, live_sweep r hlater]
  · obtain ⟨r, hr, hr'⟩ := hboth p hp
    exact hr.readValue_congr hr' hs h.fits rfl

end Sweeps

/-! ## Records and insertions -/

section Kept

variable {ttl : UInt32} {last : Option Int64} {e : Int64 × Row} {r : Record} {now later : Int64}

theorem withinTtl_anti (h : WithinTtl ttl now later) {earlier : Int64} (hle : earlier ≤ later) :
    WithinTtl ttl now earlier := by
  rw [Int64.le_iff_toInt_le] at hle
  rcases h with h | h
  · exact .inl h
  · exact .inr (hle.trans h)

/-- The record of an insertion in a table that was last swept at `last`: it is
marked if it had expired by then. -/
structure Kept (ttl : UInt32) (last : Option Int64) (e : Int64 × Row) (r : Record) : Prop where
  past : 0 ≤ e.1.toInt
  values : r.values = e.2
  expiry : r.expiry = expiryAt ttl e.1
  valid : r.valid = true ↔ ∀ t ∈ last, WithinTtl ttl e.1 t

theorem kept_new (row : Row) (h0 : 0 ≤ now.toInt) (h : ∀ t ∈ last, t ≤ now) :
    Kept ttl last (now, row) (recordOf ttl (now, row)) := by
  refine ⟨h0, rfl, rfl, iff_of_true rfl fun t ht => ?_⟩
  have hle := h t ht
  rw [Int64.le_iff_toInt_le] at hle
  exact .inr (by show t.toInt ≤ now.toInt + ttl.toNat; omega)

/-- It is seen as long as it has not expired. -/
theorem Kept.live (h : Kept ttl last e r) (hlast : ∀ t ∈ last, t ≤ later) :
    r.live later = true ↔ WithinTtl ttl e.1 later := by
  have hpast := h.past
  rw [Record.live, Bool.and_eq_true, h.valid, h.expiry, unexpired_iff (by omega)]
  exact and_iff_right_of_imp fun hw t ht => withinTtl_anti hw (hlast t ht)

theorem Kept.sweep (h : Kept ttl last e r) (hlast : ∀ t ∈ last, t ≤ now) :
    Kept ttl (some now) e (r.sweep now) := by
  refine ⟨h.past, h.values, h.expiry, (h.live hlast).trans ?_⟩
  simp

/-- A sweep counts what has expired since the one before. -/
theorem Kept.swept (h : Kept ttl last e r) (hlast : ∀ t ∈ last, t ≤ now) :
    swept now r = (!WithinTtl ttl e.1 now && last.all (WithinTtl ttl e.1 ·)) := by
  have hall : last.all (WithinTtl ttl e.1 ·) = true ↔ ∀ t ∈ last, WithinTtl ttl e.1 t := by
    cases last <;> simp
  have hlive : r.live now = decide (WithinTtl ttl e.1 now) := by
    rw [Bool.eq_iff_iff, h.live hlast, decide_eq_true_iff]
  rw [Proofs.swept, Bool.and_comm, hlive, Bool.eq_iff_iff, Bool.and_eq_true, Bool.and_eq_true,
    h.valid, hall]

variable {stored : List (Int64 × Row)} {rs : List Record}

theorem countP_swept (h : List.Forall₂ (Kept ttl last) stored rs) (hlast : ∀ t ∈ last, t ≤ now) :
    rs.countP (swept now) = newlyExpired ttl stored last now := by
  induction h with
  | nil => rfl
  | @cons e r stored rs he _ ih =>
      rw [newlyExpired] at ih ⊢
      rw [List.countP_cons, List.countP_cons, ih, he.swept hlast]

theorem filter_live (h : List.Forall₂ (Kept ttl last) stored rs) (hlast : ∀ t ∈ last, t ≤ later) :
    (rs.filter (·.live later)).map (·.values) =
      (stored.filter fun e => WithinTtl ttl e.1 later).map (·.2) := by
  induction h with
  | nil => rfl
  | @cons e r stored rs he _ ih =>
      have hlive := he.live hlast
      by_cases hw : WithinTtl ttl e.1 later
      · rw [List.filter_cons_of_pos (hlive.mpr hw), List.filter_cons_of_pos (by simpa using hw),
          List.map_cons, List.map_cons, ih, he.values]
      · rw [List.filter_cons_of_neg (mt hlive.mp hw), List.filter_cons_of_neg (by simpa using hw),
          ih]

end Kept

/-! ## Runs -/

section Runs

variable {s : Schema} {ttl : UInt32}

/-- What a table is after calls: it stores the records of the insertions, the
last sweep was at `last`, and `swept` rows have been swept in all. -/
structure SweptTo (s : Schema) (ttl : UInt32) (t : Table) (stored : List (Int64 × Row))
    (last : Option Int64) (swept : Nat) : Prop where
  stores : ∃ rs, Rep t rs ∧ List.Forall₂ (Kept ttl last) stored rs ∧
    rs.countP (·.valid) + swept = stored.length
  schema : t.schema = s
  ttl : t.ttlSeconds = ttl

variable {t : Table} {stored : List (Int64 × Row)} {last : Option Int64} {total : Nat}

theorem SweptTo.insert (h : SweptTo s ttl t stored last total) {now : Int64} (h0 : 0 ≤ now.toInt)
    (hlast : ∀ l ∈ last, l ≤ now) (row : Row) :
    ∃ t' e, t.insert now row = .ok (t', e) ∧
      SweptTo s ttl t' (stored ++ admitted s [.insert now row]) last total := by
  obtain ⟨rs, hrep, hkept, hcount⟩ := h.stores
  cases hv : s.validateRow row with
  | some e =>
      have hnone : admitted s [.insert now row] = [] := by simp [admitted, hv]
      refine ⟨t, some e, insert_rejected (h.schema ▸ hv) now, ?_⟩
      rwa [hnone, List.append_nil]
  | none =>
      obtain ⟨t', hins, hrep', hs, httl⟩ := hrep.insert_stored (h.schema ▸ hv) now
      have hone : admitted s [.insert now row] = [(now, row)] := by simp [admitted, hv]
      rw [hone]
      refine ⟨t', none, hins, ⟨_, hrep', List.rel_append hkept (.cons ?_ .nil), ?_⟩,
        hs.trans h.schema, httl.trans h.ttl⟩
      · rw [h.ttl]
        exact kept_new row h0 hlast
      · have hvalid : [recordOf t.ttlSeconds (now, row)].countP (·.valid) = 1 := rfl
        rw [List.countP_append, List.length_append, hvalid, List.length_singleton]
        omega

theorem SweptTo.sweep (h : SweptTo s ttl t stored last total) {now : Int64}
    (hlast : ∀ l ∈ last, l ≤ now) :
    ∃ t', t.cleanupExpired now = .ok (t', newlyExpired ttl stored last now) ∧
      SweptTo s ttl t' stored (some now) (total + newlyExpired ttl stored last now) := by
  obtain ⟨rs, hrep, hkept, hcount⟩ := h.stores
  obtain ⟨t', hrun, hrep', -, hs, httl⟩ := hrep.cleanupExpired now
  have hswept := countP_swept hkept hlast
  have hbalance := countP_sweep now rs
  rw [hswept] at hrun hbalance
  refine ⟨t', hrun, ⟨_, hrep', ?_, by omega⟩, hs.trans h.schema, httl.trans h.ttl⟩
  exact List.forall₂_map_right_iff.mpr (hkept.imp fun _ _ hk => hk.sweep hlast)

/-- Calls in the order of their times run through, and the sweeps return what
they should. -/
theorem SweptTo.run (h : SweptTo s ttl t stored last total) {ops : List TableOp}
    (hord : ops.Pairwise fun a b => a.time ≤ b.time) (h0 : ∀ op ∈ ops, 0 ≤ op.time.toInt)
    (hlast : ∀ l ∈ last, ∀ op ∈ ops, l ≤ op.time) :
    ∃ t' last', runSweeps t ops = .ok (t', sweepCounts s ttl stored last ops) ∧
      SweptTo s ttl t' (stored ++ admitted s ops) last'
        (total + (sweepCounts s ttl stored last ops).sum) ∧
      ∀ l ∈ last', l ∈ last ∨ ∃ op ∈ ops, op.time = l := by
  induction ops generalizing t stored last total with
  | nil =>
      refine ⟨t, last, rfl, ?_, fun l hl => .inl hl⟩
      rwa [admitted, List.filterMap_nil, List.append_nil]
  | cons op ops ih =>
      obtain ⟨hhead, htail⟩ := List.pairwise_cons.mp hord
      have h0' : ∀ op' ∈ ops, 0 ≤ op'.time.toInt :=
        fun op' hop => h0 op' (List.mem_cons_of_mem op hop)
      have hadm : admitted s (op :: ops) = admitted s [op] ++ admitted s ops :=
        List.filterMap_append (l := [op])
      cases op with
      | insert now row =>
          have hnow : 0 ≤ now.toInt := h0 _ List.mem_cons_self
          have hbefore : ∀ l ∈ last, l ≤ now := fun l hl => hlast l hl _ List.mem_cons_self
          obtain ⟨t₁, e, hins, h₁⟩ := h.insert hnow hbefore row
          obtain ⟨t', last', hrun, hto, hfrom⟩ := ih h₁ htail h0'
            fun l hl op' hop => hlast l hl op' (List.mem_cons_of_mem _ hop)
          rw [runSweeps, hins, Outcome.bind_ok, hadm, ← List.append_assoc, sweepCounts]
          refine ⟨t', last', hrun, hto, fun l hl => (hfrom l hl).imp_right ?_⟩
          rintro ⟨op', hop, heq⟩
          exact ⟨op', List.mem_cons_of_mem _ hop, heq⟩
      | cleanup now =>
          have hbefore : ∀ l ∈ last, l ≤ now := fun l hl => hlast l hl _ List.mem_cons_self
          obtain ⟨t₁, hclean, h₁⟩ := h.sweep hbefore
          obtain ⟨t', last', hrun, hto, hfrom⟩ := ih h₁ htail h0'
            fun l hl op' hop => Option.some.inj hl ▸ hhead op' hop
          have hnone : admitted s [.cleanup now] = [] := rfl
          rw [runSweeps, hclean, Outcome.bind_ok, hadm, hnone, List.nil_append, sweepCounts]
          refine ⟨t', last', ?_, ?_, fun l hl => .inr ?_⟩
          · dsimp only
            rw [hrun]
            rfl
          · rwa [List.sum_cons, ← Nat.add_assoc]
          · rcases hfrom l hl with heq | ⟨op', hop, heq⟩
            · exact ⟨_, List.mem_cons_self, Option.some.inj heq⟩
            · exact ⟨op', List.mem_cons_of_mem _ hop, heq⟩

end Runs

end FlexQL.Proofs
