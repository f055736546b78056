import FlexQL.Proofs.Snapshot
import FlexQL.Proofs.Sweep
import FlexQL.Spec.Snapshot

/-!
# A snapshot loads to tables that answer alike

A scan of the loaded table shows what the scan of the old one showed, for
that is what was saved. The indexes differ: the old one leads to the last row
of every key, the new one to the last row that could be seen. They lead to
the same rows that can be seen when no such row is covered by a later one
that cannot. Both list them in ascending order, and there is only one way to
do that.
-/

namespace FlexQL.Proofs

open Lib FlexQL.Ref FlexQL.Spec

/-! ## The calls of a table -/

theorem grown_settled {t : Table} (h : Grown t) : Settled t := by
  induction h with
  | new hnew => exact settled_new ⟨_, rfl⟩ hnew
  | insert _ hins ih => exact ih.insert hins
  | @sweep t t' now n _ hrun ih =>
      have hs := (cleanupExpired_frame hrun).1
      refine ⟨hs ▸ ih.built, hs ▸ ih.pk, fun hsize => ?_⟩
      obtain ⟨rs, hrep⟩ := ih.stores (hs ▸ hsize)
      obtain ⟨t₂, hclean, hrep', -⟩ := hrep.cleanupExpired now
      obtain rfl := (Prod.mk.inj (Except.ok.inj (hclean.symm.trans hrun))).1
      exact ⟨_, hrep'⟩

/-! ## Rows that can be seen -/

section Sightings

variable {t t' : Table} {rs rs' : List Record} {now : Int64}

theorem Rep.sightings (h : Rep t rs) (now : Int64) :
    sightings now t = .ok (rs.map fun r => (r.values, r.live now)) := by
  rw [Spec.sightings, Outcome.mapM_eq_ok, List.forall₂_map_right_iff]
  refine h.rows.imp fun p r hr => ?_
  rw [hr.readRow h.fits, Outcome.bind_ok, hr.isRowValid h.fits now, Outcome.bind_ok]

theorem Rep.sightings_iff (h : Rep t rs) {Q : List (Row × Bool) → Prop} :
    (∃ l, Spec.sightings now t = .ok l ∧ Q l) ↔ Q (rs.map fun r => (r.values, r.live now)) := by
  rw [h.sightings now]
  exact ⟨fun ⟨l, hl, hq⟩ => Except.ok.inj hl ▸ hq, fun hq => ⟨_, rfl, hq⟩⟩

theorem Rep.whole_iff (h : Rep t rs) : Whole now t ↔ ∀ r ∈ rs, r.live now = true :=
  h.sightings_iff.trans List.forall_mem_map

theorem Rep.ordered_iff (h : Rep t rs) :
    Ordered now t ↔ ∀ r ∈ rs, Comparable (pkType t.schema) (key r.values) :=
  h.sightings_iff.trans List.forall_mem_map

theorem Rep.uncovers_iff (h : Rep t rs) : Uncovers now t ↔
    rs.Pairwise fun r r' => r.live now = true → r'.live now = false →
      (key r'.values).eq (key r.values) = false :=
  h.sightings_iff.trans List.pairwise_map

end Sightings

/-! ## Range queries -/

section Ranges

variable {t t' : Table} {rs rs' : List Record} {now : Int64}

/-- The row is the last one of its key in the list, and in the range. -/
def LastInRange (op : CmpOp) (v : Value) (rs : List Record) (r : Record) : Prop :=
  op.holds (key r.values) v = true ∧ ∃ front back, rs = front ++ r :: back ∧
    ∀ r' ∈ back, ¬ (key r'.values).eq (key r.values) = true

theorem lastTied_iff_split {r : Record} :
    (∃ i, rs[i]? = some r ∧ LastTied rs i r) ↔ ∃ front back, rs = front ++ r :: back ∧
      ∀ r' ∈ back, ¬ (key r'.values).eq (key r.values) = true :=
  exists_last_iff_split (R := fun r' r : Record => (key r'.values).eq (key r.values) = true)

/-- The answer of a range query: the rows that can be seen and are the last
of their keys, in ascending order. -/
theorem Rep.indexRange_rows (h : Rep t rs)
    (hkeys : ∀ r ∈ rs, Comparable (pkType t.schema) (key r.values)) (now : Int64) (op : CmpOp)
    {v : Value} (hv : Comparable (pkType t.schema) v) :
    ∃ rows, t.indexRange now op v [] = .ok rows ∧
      rows.Pairwise (fun a b => (key a).lt (key b) = true) ∧
      ∀ row, row ∈ rows ↔ ∃ r, LastInRange op v rs r ∧ r.live now = true ∧ r.values = row := by
  obtain ⟨ids, hasc, hids, hrun⟩ := h.indexRange_tied hkeys now op hv
  have hget : ∀ {i : Nat} {row : Row}, (rs[i]?.filter (·.live now)).map (·.values) = some row ↔
      ∃ r, rs[i]? = some r ∧ r.live now = true ∧ r.values = row := by
    intro i row
    rw [Option.map_eq_some_iff]
    simp only [Option.filter_eq_some_iff, and_assoc]
  refine ⟨_, (hrun [] (by simp)).trans (by rw [map_project_nil]), ?_, fun row => ?_⟩
  · refine List.Pairwise.filterMap _ (fun i j hij row hrow row' hrow' => ?_) hasc
    obtain ⟨r, hr, -, rfl⟩ := hget.mp hrow
    obtain ⟨r', hr', -, rfl⟩ := hget.mp hrow'
    exact hij r r' hr hr'
  · rw [seen, List.mem_filterMap]
    constructor
    · rintro ⟨i, hi, hrow⟩
      obtain ⟨r, hr, hlive, hvalues⟩ := hget.mp hrow
      obtain ⟨r₁, hr₁, hop, hlast⟩ := (hids i).mp hi
      obtain rfl := Option.some.inj (hr.symm.trans hr₁)
      exact ⟨r, ⟨hop, lastTied_iff_split.mp ⟨i, hr, hlast⟩⟩, hlive, hvalues⟩
    · rintro ⟨r, ⟨hop, hsplit⟩, hlive, hvalues⟩
      obtain ⟨i, hr, hlast⟩ := lastTied_iff_split.mpr hsplit
      exact ⟨i, (hids i).mpr ⟨r, hr, hop, hlast⟩, hget.mpr ⟨r, hr, hlive, hvalues⟩⟩

/-- Lists in strictly ascending order with the same members are the same. -/
theorem eq_of_ascending {ty : DataType} {a b : List Row}
    (hP : ∀ row ∈ a, Comparable ty (key row))
    (ha : a.Pairwise fun x y => (key x).lt (key y) = true)
    (hb : b.Pairwise fun x y => (key x).lt (key y) = true) (hmem : ∀ row, row ∈ a ↔ row ∈ b) :
    a = b := by
  have o := valueOrder ty
  have hne : ∀ {l : List Row}, (∀ row ∈ l, row ∈ a) →
      l.Pairwise (fun x y => (key x).lt (key y) = true) → l.Nodup := by
    intro l hl hlt
    refine hlt.imp_of_mem fun {x y} hx _ hxy heq => ?_
    rw [heq, o.irrefl (hP y (heq ▸ hl x hx))] at hxy
    exact absurd hxy (by simp)
  have hperm : a.Perm b := (List.perm_ext_iff_of_nodup (hne (fun _ h => h) ha)
    (hne (fun row h => (hmem row).mpr h) hb)).mpr hmem
  refine hperm.eq_of_pairwise (fun x y hx hy hxy hyx => ?_) ha hb
  have := o.asymm (hP x hx) (hP y ((hmem y).mpr hy)) hxy
  rw [hyx] at this
  exact absurd this (by simp)

/-- The row is the last one of its key among the rows, and in the range. -/
def LastRow (op : CmpOp) (v : Value) (rows : List Row) (row : Row) : Prop :=
  op.holds (key row) v = true ∧ ∃ front back, rows = front ++ row :: back ∧
    ∀ row' ∈ back, ¬ (key row').eq (key row) = true

/-- Rows that cannot be seen may as well not be there, if they cover none
that can. -/
theorem lastInRange_visible {op : CmpOp} {v : Value} {row : Row}
    (huncovers : rs.Pairwise fun r r' => r.live now = true → r'.live now = false →
      (key r'.values).eq (key r.values) = false) :
    (∃ r, LastInRange op v rs r ∧ r.live now = true ∧ r.values = row) ↔
      LastRow op v ((rs.filter (·.live now)).map (·.values)) row := by
  constructor
  · rintro ⟨r, ⟨hop, front, back, rfl, hback⟩, hlive, rfl⟩
    refine ⟨hop, (front.filter (·.live now)).map (·.values),
      (back.filter (·.live now)).map (·.values), ?_, fun row' hrow' => ?_⟩
    · rw [List.filter_append, List.filter_cons_of_pos hlive, List.map_append, List.map_cons]
    · obtain ⟨r', hr', rfl⟩ := List.mem_map.mp hrow'
      exact hback r' (List.mem_of_mem_filter hr')
  · rintro ⟨hop, front, back, hsplit, hback⟩
    obtain ⟨front', rest, hfilter, -, hrest⟩ := List.map_eq_append_iff.mp hsplit
    obtain ⟨r, back', rfl, rfl, hback'⟩ := List.map_eq_cons_iff.mp hrest
    obtain ⟨front₁, rest₁, rfl, -, hrest₁⟩ := List.filter_eq_append_iff.mp hfilter
    obtain ⟨skip, back₁, rfl, -, hlive, hback₁⟩ := List.filter_eq_cons_iff.mp hrest₁
    refine ⟨r, ⟨hop, front₁ ++ skip, back₁, by simp, fun r' hr' hk => ?_⟩, hlive, rfl⟩
    by_cases hl : r'.live now = true
    · refine hback r'.values ?_ hk
      rw [← hback', ← hback₁]
      exact List.mem_map_of_mem (List.mem_filter.mpr ⟨hr', hl⟩)
    · have hpair := (List.pairwise_append.mp huncovers).2.1
      have hcover := (List.pairwise_cons.mp (List.pairwise_append.mp hpair).2.1).1 r' hr' hlive
        (by simpa using hl)
      rw [hcover] at hk
      exact absurd hk (by simp)

/-- Tables that show the same rows and cover none give the same answers. -/
theorem Rep.range_ordered (h : Rep t rs) (h' : Rep t' rs') (hs : t'.schema = t.schema)
    (hkeys : ∀ r ∈ rs, Comparable (pkType t.schema) (key r.values))
    (hrows : (rs.filter (·.live now)).map (·.values) = rs'.map (·.values))
    (huncovers : rs.Pairwise fun r r' => r.live now = true → r'.live now = false →
      (key r'.values).eq (key r.values) = false)
    (hall : ∀ r ∈ rs', r.live now = true) (op : CmpOp) {v : Value}
    (hv : Comparable (pkType t.schema) v) :
    t'.indexRange now op v [] = t.indexRange now op v [] := by
  have hkeys' : ∀ r ∈ rs', Comparable (pkType t'.schema) (key r.values) := by
    intro r hr
    have hmem : r.values ∈ (rs.filter (·.live now)).map (·.values) :=
      hrows ▸ List.mem_map_of_mem hr
    obtain ⟨r₁, hr₁, he⟩ := List.mem_map.mp hmem
    rw [hs, ← he]
    exact hkeys r₁ (List.mem_of_mem_filter hr₁)
  have huncovers' : rs'.Pairwise fun r r' => r.live now = true → r'.live now = false →
      (key r'.values).eq (key r.values) = false := by
    refine List.pairwise_of_forall_mem_list fun r _ r' hr' _ hdead => ?_
    rw [hall r' hr'] at hdead
    exact absurd hdead (by simp)
  obtain ⟨rows, hrun, hasc, hmem⟩ := h.indexRange_rows hkeys now op hv
  obtain ⟨rows', hrun', hasc', hmem'⟩ := h'.indexRange_rows hkeys' now op (hs ▸ hv)
  have hsame : rows' = rows := by
    refine @eq_of_ascending (pkType t.schema) _ _ (fun row hrow => ?_) hasc' hasc fun row => ?_
    · obtain ⟨r, ⟨-, front, back, hsplit, -⟩, -, rfl⟩ := (hmem' row).mp hrow
      rw [← hs]
      exact hkeys' r (hsplit ▸ by simp)
    · rw [hmem, hmem', lastInRange_visible huncovers, lastInRange_visible huncovers',
        List.filter_eq_self.mpr hall, hrows]
  rw [hrun, hrun', hsame]

/-- Tables with the same rows, all of which can be seen, give the same
answers whatever their keys are. -/
theorem Rep.range_whole (h : Rep t rs) (h' : Rep t' rs') (hs : t'.schema = t.schema)
    (hrows : rs.map (·.values) = rs'.map (·.values)) (hlive : ∀ r ∈ rs, r.live now = true)
    (hlive' : ∀ r ∈ rs', r.live now = true) (op : CmpOp) (v : Value) :
    t'.indexRange now op v [] = t.indexRange now op v [] := by
  have hindex : t'.pkIndex = t.pkIndex := by
    have hi := h'.index
    rw [← hrows, hs, h.index] at hi
    exact (Except.ok.inj hi).symm
  have hget : ∀ {l : List Record} (i : Nat), (∀ r ∈ l, r.live now = true) →
      (l[i]?.filter (·.live now)).map (·.values) = (l.map (·.values))[i]? := by
    intro l i hl
    rw [List.getElem?_map]
    cases hi : l[i]? with
    | none => rfl
    | some r => rw [Option.filter_some, if_pos (hl r (List.mem_of_getElem? hi))]
  have hcollect : t'.collect now [] = t.collect now [] := by
    funext results i
    cases results with
    | error e => rfl
    | ok rows =>
        have hnil : ∀ {n : Nat}, ∀ i ∈ ([] : List Nat), i < n := by simp
        rw [h.collect_one now hnil, h'.collect_one now hnil]
        change (Except.ok (rows ++ ((rs'[i]?.filter (·.live now)).map (·.values)).toList), true) =
          (Except.ok (rows ++ ((rs[i]?.filter (·.live now)).map (·.values)).toList), true)
        rw [hget i hlive, hget i hlive', hrows]
  simp only [Table.indexRange, hcollect, hindex]

end Ranges

/-! ## The whole file -/

section File

variable {m : Finmap fun _ : Bytes => Table} {tables : List (Bytes × Table)} {now : Int64}

/-- What a scan shows of a table. -/
def visible (now : Int64) (t : Table) : Rel :=
  ⟨t.schema, match t.scanAll now with
    | .ok rows => rows
    | .error _ => []⟩

theorem Rep.visible {t : Table} {rs : List Record} (h : Rep t rs) (now : Int64) :
    Proofs.visible now t = ⟨t.schema, (rs.filter (·.live now)).map (·.values)⟩ := by
  rw [Proofs.visible, h.scanAll now]

/-- The relations that a scan of every table shows. -/
theorem exists_visible (horder : Enumerates tables m) (now : Int64) : ∃ c : Catalog,
    MapRel (fun _ t r => r = visible now t) m c := by
  refine ⟨(tables.map fun p => (⟨p.1, visible now p.2⟩ : Sigma fun _ : Bytes => Rel)).toFinmap,
    fun name => ?_⟩
  have hkeys : (tables.map fun p =>
      (⟨p.1, visible now p.2⟩ : Sigma fun _ : Bytes => Rel)).NodupKeys := by
    rw [List.NodupKeys, List.keys, List.map_map]
    exact horder.nodup
  rw [Finmap.dlookup_list_toFinmap]
  cases hm : m.lookup name with
  | none =>
      have hnone : name ∉ (tables.map fun p =>
          (⟨p.1, visible now p.2⟩ : Sigma fun _ : Bytes => Rel)).keys := by
        rw [List.keys, List.map_map]
        intro hmem
        obtain ⟨p, hp, rfl⟩ := List.mem_map.mp hmem
        exact absurd (hm.symm.trans ((horder.mem p.1 p.2).mp hp)) (by simp)
      rw [List.dlookup_eq_none.mpr hnone]
      exact .none
  | some t =>
      have hmem : (⟨name, visible now t⟩ : Sigma fun _ : Bytes => Rel) ∈
          tables.map fun p => (⟨p.1, visible now p.2⟩ : Sigma fun _ : Bytes => Rel) :=
        List.mem_map.mpr ⟨(name, t), (horder.mem name t).mpr hm, rfl⟩
      rw [List.mem_dlookup_iff hkeys |>.mpr hmem]
      exact .some rfl

theorem Rep.saved {name : Bytes} {t : Table} {rs : List Record} (h : Rep t rs)
    (hname : name.length ≤ Snapshot.maxStr)
    (hcols : ∀ c ∈ t.schema.columns, c.name.length ≤ Snapshot.maxStr ∧ Known c.type)
    (hcount : t.rows.length < 2 ^ 64) (now : Int64) : Saved now name t (Proofs.visible now t) := by
  have hscan := h.scanAll now
  rw [h.visible]
  refine ⟨by rw [Snapshot.saveTable, hscan, Outcome.bind_ok], hname, h.fits, hcols,
    fun row hrow => ?_, ?_⟩
  · obtain ⟨r, hr, rfl⟩ := List.mem_map.mp hrow
    obtain ⟨p, -, hat⟩ := h.row_of_mem (List.mem_of_mem_filter hr)
    exact validateRow_eq_none.mpr hat.values.accepts
  · rw [List.length_map]
    exact ((List.length_filter_le _ _).trans_eq h.rows.length_eq.symm).trans_lt hcount

theorem storing_saved {name : Bytes} {t : Table} (h : Storing name t) (now : Int64) :
    Saved now name t (visible now t) := by
  obtain ⟨rs, hrep⟩ := (grown_settled h.grown).stores h.size
  exact hrep.saved h.name h.columns h.rows now

theorem storing_scan {name : Bytes} {t : Table} (h : Storing name t) (now : Int64) :
    t.scanAll now = .ok (visible now t).rows := by
  obtain ⟨rs, hrep⟩ := (grown_settled h.grown).stores h.size
  rw [hrep.visible, hrep.scanAll]

/-- A table that was just loaded shows all its rows. -/
theorem Loaded.scanAll {name : Bytes} {t : Table} {r : Rel} (h : Loaded now name t r) :
    t.scanAll now = .ok r.rows := by
  rw [h.stores.scanAll now, recordsOf_live]

/-- A table and the one loaded from what it shows. -/
theorem storing_sameAnswers {name : Bytes} {t t' : Table} (h : Storing name t)
    (hindex : Whole now t ∨ (Ordered now t ∧ Uncovers now t))
    (hloaded : Loaded now name t' (visible now t)) : SameAnswers now t t' := by
  obtain ⟨rs, hrep⟩ := (grown_settled h.grown).stores h.size
  rw [hrep.visible] at hloaded
  have hrep' := hloaded.stores
  have hs : t'.schema = t.schema := hloaded.schema
  have hlive' : ∀ r ∈ recordsOf defaultTtlSeconds now ((rs.filter (·.live now)).map (·.values)),
      r.live now = true := by
    intro r hr
    obtain ⟨row, -, rfl⟩ := List.mem_map.mp hr
    exact recordOf_live _ _ _
  have hvalues := recordsOf_values defaultTtlSeconds now ((rs.filter (·.live now)).map (·.values))
  refine ⟨by rw [hs], ⟨_, hrep.scanAll now, hloaded.scanAll⟩, fun op v hv => ?_,
    fun hkeys op v hv => ?_⟩
  · by_cases hwhole : Whole now t
    · have hlive := hrep.whole_iff.mp hwhole
      refine hrep.range_whole hrep' hs ?_ hlive hlive' op v
      rw [hvalues, List.filter_eq_self.mpr hlive]
    · obtain ⟨hkeys, hunc⟩ := hindex.resolve_left hwhole
      exact hrep.range_ordered hrep' hs (hrep.ordered_iff.mp hkeys) hvalues.symm
        (hrep.uncovers_iff.mp hunc) hlive' op (hv.resolve_left hwhole)
  · obtain ⟨rows, hrun, -⟩ := hrep.indexRange_rows (hrep.ordered_iff.mp hkeys) now op hv
    exact ⟨rows, hrun⟩

/-- What `save` writes for tables that can be stored loads to what they show. -/
theorem contents_visible (horder : Enumerates tables m) (hcard : tables.length < 2 ^ 32)
    (hstore : ∀ name t, m.lookup name = some t → Storing name t) (lsn : UInt64) :
    ∃ file, Snapshot.contents now tables lsn = .ok file ∧
      ∀ now', ∃ m', Snapshot.load now' file = .ok (.ok ⟨lsn, m'⟩) ∧
        MapRel (fun name t t' => Loaded now' name t' (visible now t)) m m' := by
  obtain ⟨c, hc⟩ := exists_visible horder now
  have hsaved : MapRel (Saved now) m c := hc.imp fun name t r ht _ hr =>
    hr ▸ storing_saved (hstore name t ht) now
  obtain ⟨file, hfile, -, hload⟩ := contents_loads hsaved horder hcard lsn
  refine ⟨file, hfile, fun now' => ?_⟩
  obtain ⟨m', hrun, hm'⟩ := hload now'
  exact ⟨m', hrun, hc.join hm' fun name t t' r _ hr ht' => hr ▸ ht'⟩

/-- The columns a snapshot can hold: two integers. -/
theorem pairSchema_columns : ∀ c ∈ pairSchema.columns, c.name.length ≤ Snapshot.maxStr ∧
    ∀ b, c.type ≠ .unknown b := by
  have hint : ∀ c ∈ pairSchema.columns, c.name.length ≤ Snapshot.maxStr ∧ c.type = .int := by
    decide
  exact fun c hc => (hint c hc).imp_right fun htype b => by simp [htype]

theorem toOption_eq_some {ε α : Type} {x : Except ε α} {a : α} (h : x.toOption = some a) :
    x = .ok a := by
  cases x with
  | error e => exact absurd h nofun
  | ok b => exact congrArg Except.ok (Option.some.inj h)

/-- A table with a DECIMAL column. -/
def scaleSchema : Schema :=
  Schema.empty.addColumns [⟨Bytes.lit "V", .decimal, 255⟩]

end File

end FlexQL.Proofs
