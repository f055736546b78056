import FlexQL.Proofs.Table

/-!
# The index against the scan

The index holds one row id per first value, that of the last row inserted
with it. A range query therefore sees exactly the rows that are the last of
their first value, and agrees with a filtered scan when every row the query
should see is one of these.
-/

namespace FlexQL.Proofs

open Lib FlexQL.Ref FlexQL.Spec

/-! ## Runs of insertions -/

section Runs

variable {name : Bytes} {s : Schema} {ttl : UInt32} {t₀ t : Table}
  {ops : List (Int64 × Row)}

theorem inserted_rep (hf : Fits s) (hnew : Table.new name s ttl = .ok t₀)
    (hrun : Inserted t₀ ops t) :
    Rep t (ops.map (recordOf ttl)) ∧ t.schema = s ∧ t.ttlSeconds = ttl := by
  induction hrun with
  | nil =>
      obtain ⟨t, hrun, hrep, _, hs, httl⟩ := rep_new name hf ttl
      obtain rfl := Except.ok.inj (hrun.symm.trans hnew)
      exact ⟨hrep, hs, httl⟩
  | snoc _ hins ih =>
      obtain ⟨hrep, hs, httl⟩ := ih
      obtain ⟨hrep', _, _, hs', httl'⟩ := hrep.insert_ok hins
      rw [List.map_append, ← httl]
      exact ⟨httl ▸ hrep', hs'.trans hs, httl'⟩

/-- A row that passes the check is keyed by a value of the first column's type. -/
theorem accepts_key {vs : Row} (hpk : s.columns ≠ [])
    (h : List.Forall₂ Accepts s.columns vs) : (key vs).type = pkType s := by
  obtain ⟨c, cs, hcols⟩ := List.exists_cons_of_ne_nil hpk
  rw [hcols] at h
  obtain ⟨v, vs, hv, _, rfl⟩ := List.forall₂_cons_left_iff.mp h
  rw [pkType, hcols]
  exact hv.type

theorem Rep.key_type {rs : List Record} (h : Rep t rs) :
    ∀ row ∈ rs.map (·.values), (key row).type = pkType t.schema := by
  intro row hrow
  obtain ⟨r, hr, rfl⟩ := List.mem_map.mp hrow
  obtain ⟨i, hi, rfl⟩ := List.getElem_of_mem hr
  exact accepts_key h.fits.pk ((List.forall₂_iff_get.mp h.rows).2 i
    (by rw [h.rows.length_eq]; exact hi) hi).values.accepts

theorem indexOps_keys {rows : List Row} {ty : DataType}
    (h : ∀ row ∈ rows, (key row).type = ty) : ∀ op ∈ indexOps rows, op.1.type = ty := by
  intro op hop
  obtain ⟨⟨row, i⟩, hr, rfl⟩ := List.mem_map.mp hop
  exact h row (List.fst_mem_of_mem_zipIdx hr)

/-- The index over rows whose keys compare: it gets built, and is a search
tree over the last rows of every key. -/
theorem buildIndex_inv {rows : List Row} (hty : Exact (pkType s))
    (hkeys : ∀ row ∈ rows, (key row).type = pkType s) :
    ∃ t leaves uppers, buildIndex s rows = .ok t ∧
      Inv (Comparable (pkType s)) t leaves uppers ∧
      contents t.pool leaves = stored [] (indexOps rows) :=
  insertAll_inv (valueOrder _) _ fun op hop =>
    comparable_of_exact hty (indexOps_keys hkeys op hop)

/-- On keys that compare, rows that pass the check can all be inserted. -/
theorem inserted_exists (hf : Fits s) (hty : Exact (pkType s))
    (hnew : Table.new name s ttl = .ok t₀) (hv : ∀ op ∈ ops, s.validateRow op.2 = none) :
    ∃ t, Inserted t₀ ops t := by
  induction ops using List.reverseRecOn with
  | nil => exact ⟨t₀, .nil t₀⟩
  | append_singleton ops op ih =>
      obtain ⟨t, hrun⟩ := ih fun x hx => hv x (by simp [hx])
      obtain ⟨hrep, hs, _⟩ := inserted_rep hf hnew hrun
      have hop := hv op (by simp)
      have hkeys := hrep.key_type
      have hindex := hrep.index
      rw [hs] at hkeys hindex
      have hall : ∀ row ∈ (ops.map (recordOf ttl)).map (·.values) ++ [op.2],
          (key row).type = pkType s := by
        intro row hrow
        rcases List.mem_append.mp hrow with hrow | hrow
        · exact hkeys row hrow
        · obtain rfl := List.mem_singleton.mp hrow
          exact accepts_key hf.pk (validateRow_eq_none.mp hop)
      obtain ⟨index, _, _, hbuild, _⟩ := buildIndex_inv hty hall
      rw [buildIndex_append, hindex, Outcome.bind_ok, List.length_map] at hbuild
      obtain ⟨r, hr, _⟩ := Outcome.map_eq_ok.mp hbuild
      obtain ⟨a, p, hins, _⟩ := hrep.insert_accepted (hs ▸ hop) op.1
      refine ⟨pushRow t a p r.1, .snoc hrun ?_⟩
      rw [hins, hr]
      rfl

end Runs

/-! ## What a range query sees -/

section Ranges

variable {t : Table} {rs : List Record}

/-- The last row with a key tied with `k`. -/
theorem tied_indexOps {rows : List Row} {k : Value} {i : Nat} :
    tied (indexOps rows) k = some i ↔ (∃ row, rows[i]? = some row ∧ (key row).eq k = true) ∧
      ∀ j row, i < j → rows[j]? = some row → ¬ (key row).eq k = true := by
  induction rows using List.reverseRecOn with
  | nil => simp [indexOps, tied]
  | append_singleton rows r ih =>
      have hlast : (rows ++ [r])[rows.length]? = some r := List.getElem?_concat_length
      have hlt : ∀ {j}, j < rows.length → (rows ++ [r])[j]? = rows[j]? :=
        fun hj => List.getElem?_append_left hj
      have hle : ∀ {j row}, (rows ++ [r])[j]? = some row → j < rows.length + 1 := fun h => by
        simpa using (List.getElem?_eq_some_iff.mp h).1
      rw [indexOps_append, tied_append]
      split
      · next hk =>
          rw [Option.some.injEq]
          constructor
          · rintro rfl
            exact ⟨⟨r, hlast, hk⟩, fun j row hj h => absurd (hle h) (by omega)⟩
          · rintro ⟨⟨row, hrow, _⟩, hafter⟩
            have := hle hrow
            by_contra hne
            exact hafter _ r (by omega) hlast hk
      · next hk =>
          rw [ih]
          constructor
          · rintro ⟨⟨row, hrow, hkey⟩, hafter⟩
            have hi := (List.getElem?_eq_some_iff.mp hrow).1
            refine ⟨⟨row, by rw [hlt hi]; exact hrow, hkey⟩, fun j row' hj h => ?_⟩
            by_cases hj' : j < rows.length
            · exact hafter j row' hj (by rw [← hlt hj']; exact h)
            · have := hle h
              obtain rfl : j = rows.length := by omega
              obtain rfl := Option.some.inj (hlast.symm.trans h)
              exact hk
          · rintro ⟨⟨row, hrow, hkey⟩, hafter⟩
            have hi : i < rows.length := by
              have := hle hrow
              by_contra hn
              obtain rfl : i = rows.length := by omega
              obtain rfl := Option.some.inj (hlast.symm.trans hrow)
              exact hk hkey
            refine ⟨⟨row, by rw [← hlt hi]; exact hrow, hkey⟩, fun j row' hj h => ?_⟩
            have hj' := (List.getElem?_eq_some_iff.mp h).1
            exact hafter j row' hj (by rw [hlt hj']; exact h)

/-- The rows of the records with the given ids that a query at `now` sees. -/
def seen (now : Int64) (rs : List Record) (ids : List Nat) : List Row :=
  ids.filterMap fun i => (rs[i]?.filter (·.live now)).map (·.values)

theorem Rep.collect_all (h : Rep t rs) (now : Int64) {cols : List Nat}
    (hcols : ∀ i ∈ cols, i < t.schema.columns.length) (ids : List Nat) (rows : List Row) :
    feed (t.collect now cols) ids (.ok rows)
      = .ok (rows ++ (seen now rs ids).map (project cols)) := by
  rw [feed_of_continues fun _ _ => rfl]
  induction ids generalizing rows with
  | nil => simp [seen]
  | cons i ids ih =>
      rw [List.foldl_cons, h.collect_one now hcols, ih, List.append_assoc]
      congr 2
      rw [seen, seen, List.filterMap_cons]
      cases rs[i]?.filter (·.live now) <;> rfl

/-- Tied keys are in the same ranges. -/
theorem holds_congr {ty : DataType} {k k' v : Value} (hk : Comparable ty k)
    (hk' : Comparable ty k') (hv : Comparable ty v) (h : k.eq k' = true) (op : CmpOp) :
    op.holds k v = op.holds k' v := by
  have o := valueOrder ty
  have hlt := o.lt_congr_left hk hk' hv h
  have hgt := o.lt_congr_right hk hk' hv h
  have heq := o.eq_congr_left hk hk' hv h
  cases op <;> simp only [CmpOp.holds, Value.ne, Value.gt, Value.le, Value.ge, hlt, hgt, heq]

/-- A range query reads the rows the index holds for the keys in the range. -/
theorem Rep.indexRange_contents (h : Rep t rs) {leaves : List Slot} {uppers : List (List Slot)}
    (hi : Inv (Comparable (pkType t.schema)) t.pkIndex leaves uppers) (now : Int64) (op : CmpOp)
    {v : Value} (hv : Comparable (pkType t.schema) v) {cols : List Nat}
    (hcols : ∀ i ∈ cols, i < t.schema.columns.length) :
    t.indexRange now op v cols = .ok ((seen now rs
      (selected (contents t.pkIndex.pool leaves) fun k => op.holds k v)).map (project cols)) := by
  have o := valueOrder (pkType t.schema)
  have hcollect := fun ids => h.collect_all now hcols ids []
  simp only [List.nil_append] at hcollect
  cases op with
  | eq => simp only [Table.indexRange, hi.rangeEq o hv, Outcome.bind_ok, hcollect]; rfl
  | ne => simp only [Table.indexRange, hi.rangeNe, Outcome.bind_ok, hcollect]; rfl
  | lt => simp only [Table.indexRange, hi.rangeLt o hv, Outcome.bind_ok, hcollect]; rfl
  | gt => simp only [Table.indexRange, hi.rangeGt o hv, Outcome.bind_ok, hcollect]; rfl
  | le => simp only [Table.indexRange, hi.rangeLe o hv, Outcome.bind_ok, hcollect]; rfl
  | ge => simp only [Table.indexRange, hi.rangeGe o hv, Outcome.bind_ok, hcollect]; rfl

/-- The last element of a list that is related to itself, by position and by
what follows it. -/
theorem exists_last_iff_split {α : Type} {R : α → α → Prop} {l : List α} {a : α} :
    (∃ i : Nat, l[i]? = some a ∧ ∀ (j : Nat) (b : α), i < j → l[j]? = some b → ¬ R b a) ↔
      ∃ front back, l = front ++ a :: back ∧ ∀ b ∈ back, ¬ R b a := by
  constructor
  · rintro ⟨i, hr, hlast⟩
    obtain ⟨hi, rfl⟩ := List.getElem?_eq_some_iff.mp hr
    refine ⟨l.take i, l.drop (i + 1), ?_, fun b hb => ?_⟩
    · rw [← List.drop_eq_getElem_cons hi, List.take_append_drop]
    · obtain ⟨j, hj⟩ := List.getElem?_of_mem hb
      rw [List.getElem?_drop] at hj
      exact hlast _ b (by omega) hj
  · rintro ⟨front, back, rfl, hback⟩
    refine ⟨front.length, by simp, fun j b hj hb => hback b ?_⟩
    rw [List.getElem?_append_right (by omega)] at hb
    obtain ⟨k, hk⟩ := Nat.exists_eq_add_of_lt hj
    rw [show j - front.length = k + 1 by omega, List.getElem?_cons_succ] at hb
    exact List.mem_of_getElem? hb

/-- The record at `i` is the last one with its key, or one tied with it. -/
def LastTied (rs : List Record) (i : Nat) (r : Record) : Prop :=
  ∀ (j : Nat) (r' : Record), i < j → rs[j]? = some r' →
    ¬ (key r'.values).eq (key r.values) = true

theorem tied_records {k : Value} {i : Nat} :
    tied (indexOps (rs.map (·.values))) k = some i ↔
      ∃ r : Record, rs[i]? = some r ∧ (key r.values).eq k = true ∧
        ∀ (j : Nat) (r' : Record), i < j → rs[j]? = some r' → ¬ (key r'.values).eq k = true := by
  simp only [tied_indexOps, List.getElem?_map, Option.map_eq_some_iff]
  constructor
  · rintro ⟨⟨row, ⟨r, hr, rfl⟩, hk⟩, hlast⟩
    exact ⟨r, hr, hk, fun j r' hj hr' => hlast j _ hj ⟨r', hr', rfl⟩⟩
  · rintro ⟨r, hr, hk, hlast⟩
    refine ⟨⟨_, ⟨r, hr, rfl⟩, hk⟩, ?_⟩
    rintro j _ hj ⟨r', hr', rfl⟩
    exact hlast j r' hj hr'

/-- The rows it reads are the last ones of their keys, in ascending order. -/
theorem Rep.indexRange_tied (h : Rep t rs)
    (hkeys : ∀ r ∈ rs, Comparable (pkType t.schema) (key r.values)) (now : Int64) (op : CmpOp)
    {v : Value} (hv : Comparable (pkType t.schema) v) :
    ∃ ids : List Nat, ids.Pairwise (fun i j => ∀ r r' : Record, rs[i]? = some r →
        rs[j]? = some r' → (key r.values).lt (key r'.values) = true) ∧
      (∀ i, i ∈ ids ↔ ∃ r : Record, rs[i]? = some r ∧ op.holds (key r.values) v = true ∧
        LastTied rs i r) ∧
      ∀ cols, (∀ i ∈ cols, i < t.schema.columns.length) →
        t.indexRange now op v cols = .ok ((seen now rs ids).map (project cols)) := by
  have o := valueOrder (pkType t.schema)
  have hops : ∀ op ∈ indexOps (rs.map (·.values)), Comparable (pkType t.schema) op.1 := by
    intro op hop
    obtain ⟨⟨row, i⟩, hrow, rfl⟩ := List.mem_map.mp hop
    obtain ⟨r, hr, rfl⟩ := List.mem_map.mp (List.fst_mem_of_mem_zipIdx hrow)
    exact hkeys r hr
  obtain ⟨index, leaves, uppers, hbuild, hi, hc⟩ := insertAll_inv o (pkType t.schema) hops
  obtain rfl := Except.ok.inj (hbuild.symm.trans h.index)
  have hrec : ∀ {i : Nat} {r : Record}, rs[i]? = some r → Comparable (pkType t.schema)
      (key r.values) := fun hr => hkeys _ (List.mem_of_getElem? hr)
  -- an entry stands for the last record of its tie
  have hentry : ∀ {e : Value × Nat}, e ∈ contents t.pkIndex.pool leaves →
      ∃ r : Record, rs[e.2]? = some r ∧ (key r.values).eq e.1 = true ∧
        ∀ (j : Nat) (r' : Record), e.2 < j → rs[j]? = some r' →
          ¬ (key r'.values).eq e.1 = true := by
    intro e he
    have hlook := lookup_of_mem o hi.contents_typed (hi.ascending o) he
    rw [hc, lookup_stored_tied o hops (hi.contents_typed e he)] at hlook
    exact tied_records.mp hlook
  refine ⟨selected (contents t.pkIndex.pool leaves) fun k => op.holds k v, ?_,
    fun i => ⟨fun hmem => ?_, ?_⟩, fun cols => h.indexRange_contents hi now op hv⟩
  · rw [selected, List.pairwise_map]
    refine (List.Pairwise.filter _ (hi.ascending o)).imp_of_mem ?_
    intro e e' he he' hlt r r' hr hr'
    have hm := List.mem_of_mem_filter he
    have hm' := List.mem_of_mem_filter he'
    obtain ⟨r₁, hr₁, hk, -⟩ := hentry hm
    obtain ⟨r₂, hr₂, hk', -⟩ := hentry hm'
    obtain rfl := Option.some.inj (hr.symm.trans hr₁)
    obtain rfl := Option.some.inj (hr'.symm.trans hr₂)
    rw [o.lt_congr_left (hrec hr) (hi.contents_typed e hm) (hrec hr') hk,
      o.lt_congr_right (hrec hr') (hi.contents_typed e' hm') (hi.contents_typed e hm) hk']
    exact hlt
  · obtain ⟨e, he, rfl⟩ := List.mem_map.mp hmem
    obtain ⟨he, hop⟩ := List.mem_filter.mp he
    have hP := hi.contents_typed e he
    obtain ⟨r, hr, hk, hlast⟩ := hentry he
    refine ⟨r, hr, (holds_congr (hrec hr) hP hv hk op).trans hop, fun j r' hj hr' hk' => ?_⟩
    refine hlast j r' hj hr' ?_
    rw [← o.eq_congr_left (hrec hr') (hrec hr) hP hk'] at hk
    exact hk
  · rintro ⟨r, hr, hop, hlast⟩
    have htied := tied_records.mpr ⟨r, hr, o.eq_refl (hrec hr), hlast⟩
    rw [← lookup_stored_tied o hops (hrec hr), ← hc] at htied
    obtain ⟨k, hm, hk⟩ := mem_of_lookup htied
    refine List.mem_map.mpr ⟨(k, i), List.mem_filter.mpr ⟨hm, ?_⟩, rfl⟩
    exact (holds_congr (hi.contents_typed _ hm) (hrec hr) hv hk op).trans hop

/-- The record at `i` is the last one with its key. -/
def LastOfKey (rs : List Record) (i : Nat) (r : Record) : Prop :=
  ∀ (j : Nat) (r' : Record), i < j → rs[j]? = some r' → key r'.values ≠ key r.values

theorem map_project_nil (rows : List Row) : rows.map (project []) = rows := List.map_id rows

/-- Where ties are equal keys. -/
theorem Rep.indexRange (h : Rep t rs) (hty : Exact (pkType t.schema)) (now : Int64)
    (op : CmpOp) {v : Value} (hv : v.type = pkType t.schema) :
    ∃ ids : List Nat, ids.Nodup ∧
      (∀ i, i ∈ ids ↔ ∃ r : Record, rs[i]? = some r ∧ op.holds (key r.values) v = true ∧
        LastOfKey rs i r) ∧
      t.indexRange now op v [] = .ok (seen now rs ids) := by
  have htype : ∀ r ∈ rs, (key r.values).type = pkType t.schema :=
    fun r hr => h.key_type _ (List.mem_map_of_mem hr)
  have hkeys : ∀ r ∈ rs, Comparable (pkType t.schema) (key r.values) :=
    fun r hr => comparable_of_exact hty (htype r hr)
  have hlast : ∀ {i : Nat} {r : Record}, rs[i]? = some r →
      (LastTied rs i r ↔ LastOfKey rs i r) := by
    intro i r hr
    refine forall_congr' fun j => forall_congr' fun r' => forall_congr' fun _ =>
      forall_congr' fun hr' => not_congr (eq_iff_of_exact hty (htype _ (List.mem_of_getElem? hr'))
        (htype _ (List.mem_of_getElem? hr)))
  obtain ⟨ids, hasc, hids, hrun⟩ := h.indexRange_tied hkeys now op (comparable_of_exact hty hv)
  refine ⟨ids, hasc.imp_of_mem fun {i j} hi _ hlt heq => ?_, fun i => ?_, ?_⟩
  · obtain ⟨r, hr, -⟩ := (hids i).mp hi
    have hself := hlt r r hr (heq ▸ hr)
    rw [(valueOrder (pkType t.schema)).irrefl (hkeys r (List.mem_of_getElem? hr))] at hself
    exact absurd hself (by simp)
  · rw [hids]
    exact exists_congr fun r => and_congr_right fun hr => and_congr_right fun _ => hlast hr
  · rw [hrun [] (by simp), map_project_nil]

end Ranges

/-! ## Agreement -/

/-- Leaving out elements changes what a list is mapped to, even up to order,
unless they are mapped to nothing. -/
theorem perm_filterMap_filter {α β : Type} {f : α → Option β} {p : α → Bool} {l : List α} :
    ((l.filter p).filterMap f).Perm (l.filterMap f) ↔
      ∀ x ∈ l, (f x).isSome = true → p x = true := by
  induction l with
  | nil => simp
  | cons x l ih =>
      rw [List.forall_mem_cons, ← ih]
      have hlen : ((l.filter p).filterMap f).length ≤ (l.filterMap f).length :=
        (List.filter_sublist.filterMap f).length_le
      cases hx : f x with
      | none => cases hp : p x <;> simp [hx, hp]
      | some y =>
          cases hp : p x with
          | true => simp [hx, hp]
          | false =>
              simp only [List.filter_cons, hp, List.filterMap_cons, hx]
              refine iff_of_false (fun hperm => ?_) (by simp)
              have := hperm.length_eq
              simp at this
              omega

theorem filterMap_range {α β : Type} (l : List α) (f : α → Option β) :
    (List.range l.length).filterMap (fun i => l[i]?.bind f) = l.filterMap f := by
  induction l using List.reverseRecOn with
  | nil => rfl
  | append_singleton l a ih =>
      rw [List.length_append, List.length_singleton, List.range_succ, List.filterMap_append,
        List.filterMap_append, ← ih]
      congr 1
      · refine List.filterMap_congr fun i hi => ?_
        rw [List.getElem?_append_left (List.mem_range.mp hi)]
      · rw [List.filterMap_cons, List.getElem?_concat_length]
        rfl

section Agreement

variable {t : Table} {rs : List Record} {now : Int64} {op : CmpOp} {v : Value}

/-- The row with an id, if a query for `op v` at `now` should see it. -/
def wanted (now : Int64) (op : CmpOp) (v : Value) (rs : List Record) (i : Nat) : Option Row :=
  rs[i]?.bind fun r => if r.live now && op.holds (key r.values) v then some r.values else none

theorem wanted_isSome {i : Nat} : (wanted now op v rs i).isSome = true ↔
    ∃ r : Record, rs[i]? = some r ∧ r.live now = true ∧ op.holds (key r.values) v = true := by
  rw [wanted]
  cases rs[i]? with
  | none => simp
  | some r => simp

theorem filter_scan_eq_wanted :
    ((rs.filter (·.live now)).map (·.values)).filter (fun row => op.holds (key row) v)
      = (List.range rs.length).filterMap (wanted now op v rs) := by
  have hwanted : wanted now op v rs = fun i => rs[i]?.bind fun r =>
    if r.live now && op.holds (key r.values) v then some r.values else none := rfl
  rw [hwanted, filterMap_range]
  induction rs with
  | nil => rfl
  | cons r rs ih =>
      have ih := ih rfl
      cases hl : r.live now <;> cases hop : op.holds (key r.values) v <;> simp [hl, hop, ih]

theorem seen_eq_wanted {ids : List Nat}
    (h : ∀ i ∈ ids, ∀ r : Record, rs[i]? = some r → op.holds (key r.values) v = true) :
    seen now rs ids = ids.filterMap (wanted now op v rs) := by
  refine List.filterMap_congr fun i hi => ?_
  rw [wanted]
  cases hr : rs[i]? with
  | none => rfl
  | some r =>
      cases hl : r.live now <;> simp [Option.filter_some, hl, h i hi r hr]

/-- A range query agrees with the filtered scan when the index holds every
row the query should see. -/
theorem Rep.indexRange_perm (h : Rep t rs) (hty : Exact (pkType t.schema)) (now : Int64)
    (op : CmpOp) {v : Value} (hv : v.type = pkType t.schema) :
    ∃ ranged, t.indexRange now op v [] = .ok ranged ∧
      (ranged.Perm (((rs.filter (·.live now)).map (·.values)).filter
          fun row => op.holds (key row) v) ↔
        ∀ (i : Nat) (r : Record), rs[i]? = some r → r.live now = true →
          op.holds (key r.values) v = true → LastOfKey rs i r) := by
  obtain ⟨ids, hnodup, hids, hrun⟩ := h.indexRange hty now op hv
  refine ⟨_, hrun, ?_⟩
  have hseen : seen now rs ids = ids.filterMap (wanted now op v rs) := by
    refine seen_eq_wanted fun i hi r hr => ?_
    obtain ⟨r', hr', hop, _⟩ := (hids i).mp hi
    obtain rfl := Option.some.inj (hr.symm.trans hr')
    exact hop
  -- both sides select from the list of all row ids
  have hselect : ids.Perm ((List.range rs.length).filter fun i => decide (i ∈ ids)) := by
    rw [List.perm_ext_iff_of_nodup hnodup (List.nodup_range.filter _)]
    intro i
    rw [List.mem_filter, List.mem_range, decide_eq_true_eq]
    refine ⟨fun hi => ⟨?_, hi⟩, fun hi => hi.2⟩
    obtain ⟨r, hr, _⟩ := (hids i).mp hi
    exact (List.getElem?_eq_some_iff.mp hr).1
  rw [hseen, filter_scan_eq_wanted, List.Perm.congr_left (hselect.filterMap _),
    perm_filterMap_filter]
  constructor
  · intro hall i r hr hl hop
    have hi : i < rs.length := (List.getElem?_eq_some_iff.mp hr).1
    have := hall i (List.mem_range.mpr hi) (wanted_isSome.mpr ⟨r, hr, hl, hop⟩)
    obtain ⟨r', hr', _, hlast⟩ := (hids i).mp (of_decide_eq_true this)
    obtain rfl := Option.some.inj (hr.symm.trans hr')
    exact hlast
  · intro hall i _ hw
    obtain ⟨r, hr, hl, hop⟩ := wanted_isSome.mp hw
    exact decide_eq_true ((hids i).mpr ⟨r, hr, hop, hall i r hr hl hop⟩)

theorem lastOfKey_iff_unshadowed {ttl : UInt32} {ops : List (Int64 × Row)} :
    (∀ (i : Nat) (r : Record), (ops.map (recordOf ttl))[i]? = some r → r.live now = true →
      op.holds (key r.values) v = true → LastOfKey (ops.map (recordOf ttl)) i r) ↔
      Unshadowed ttl now op v ops := by
  rw [Unshadowed, List.pairwise_iff_getElem]
  have hget : ∀ (i : Nat) (hi : i < ops.length),
      (ops.map (recordOf ttl))[i]? = some (recordOf ttl ops[i]) := fun i hi => by
    rw [List.getElem?_map, List.getElem?_eq_getElem hi]
    rfl
  constructor
  · intro h i j hi hj hij hl hop
    exact h i _ (hget i hi) hl hop j _ hij (hget j hj)
  · intro h i r hr hl hop j r' hij hr'
    have hi : i < ops.length := by simpa using (List.getElem?_eq_some_iff.mp hr).1
    have hj : j < ops.length := by simpa using (List.getElem?_eq_some_iff.mp hr').1
    obtain rfl := Option.some.inj ((hget i hi).symm.trans hr)
    obtain rfl := Option.some.inj ((hget j hj).symm.trans hr')
    exact h i j hi hj hij hl hop

end Agreement

/-! ## The two paths of a query -/

/-- After any run of successful insertions into a new table, a range query
returns the rows of the filtered scan, up to order, exactly when no row it
should return was followed by another one with the same first value. -/
theorem indexRange_perm_scanAll_iff {name : Bytes} {s : Schema} {ttl : UInt32} {t₀ t : Table}
    {ops : List (Int64 × Row)} (hf : Fits s) (hty : Exact (pkType s))
    (hnew : Table.new name s ttl = .ok t₀) (hrun : Inserted t₀ ops t) (now : Int64)
    (op : CmpOp) (v : Value) (hv : v.type = pkType s) :
    ∃ scanned ranged, t.scanAll now = .ok scanned ∧ t.indexRange now op v [] = .ok ranged ∧
      (ranged.Perm (scanned.filter fun row => op.holds (key row) v) ↔
        Unshadowed ttl now op v ops) := by
  obtain ⟨hrep, rfl, _⟩ := inserted_rep hf hnew hrun
  obtain ⟨ranged, hranged, hperm⟩ := hrep.indexRange_perm hty now op hv
  exact ⟨_, ranged, hrep.scanAll now, hranged, hperm.trans lastOfKey_iff_unshadowed⟩

/-- A key and a number, both integers. -/
def pairSchema : Schema :=
  Schema.empty.addColumns [⟨Bytes.lit "ID", .int, 255⟩, ⟨Bytes.lit "N", .int, 255⟩]

theorem pairSchema_fits : Fits pairSchema :=
  ⟨⟨_, rfl⟩, by decide, by decide⟩

theorem indexRange_perm_scanAll_distinct :
    ∃ t₀ t scanned ranged, Table.new (Bytes.lit "T") pairSchema 3600 = .ok t₀ ∧
      Inserted t₀ [(0, [.int 2, .int 5]), (1, [.int 1, .int 6])] t ∧
      t.scanAll 1 = .ok scanned ∧ t.indexRange 1 .ge (.int 1) [] = .ok ranged ∧
      ranged.Perm (scanned.filter fun row => CmpOp.ge.holds (key row) (.int 1)) := by
  obtain ⟨t₀, hnew, _⟩ := rep_new (Bytes.lit "T") pairSchema_fits 3600
  have hvalid : ∀ op ∈ ([(0, [.int 2, .int 5]), (1, [.int 1, .int 6])] : List (Int64 × Row)),
      pairSchema.validateRow op.2 = none := by decide
  obtain ⟨t, hrun⟩ := inserted_exists pairSchema_fits (.inl rfl) hnew hvalid
  obtain ⟨scanned, ranged, hscan, hrange, hiff⟩ := indexRange_perm_scanAll_iff pairSchema_fits
    (.inl rfl) hnew hrun 1 .ge (.int 1) rfl
  exact ⟨t₀, t, scanned, ranged, hnew, hrun, hscan, hrange,
    hiff.mpr (by simp [Unshadowed, key])⟩

/-- Two rows with the key 1: the scan finds both, the index the second. -/
theorem indexRange_misses_duplicate :
    ∃ t₀ t, Table.new (Bytes.lit "T") pairSchema 3600 = .ok t₀ ∧
      Inserted t₀ [(0, [.int 1, .int 5]), (1, [.int 1, .int 6])] t ∧
      t.scanAll 1 = .ok [[.int 1, .int 5], [.int 1, .int 6]] ∧
      t.indexRange 1 .eq (.int 1) [] = .ok [[.int 1, .int 6]] := by
  have hrun : (do
      let t ← Table.new (Bytes.lit "T") pairSchema 3600
      let first ← t.insert 0 [.int 1, .int 5]
      let second ← first.1.insert 1 [.int 1, .int 6]
      let scanned ← second.1.scanAll 1
      let ranged ← second.1.indexRange 1 .eq (.int 1) []
      .ok (first.2, second.2, scanned, ranged) : Outcome _)
        = .ok (none, none, [[.int 1, .int 5], [.int 1, .int 6]], [[.int 1, .int 6]]) := by
    decide +kernel
  obtain ⟨t₀, hnew, hrun⟩ := Outcome.bind_eq_ok.mp hrun
  obtain ⟨⟨t₁, e₁⟩, hfirst, hrun⟩ := Outcome.bind_eq_ok.mp hrun
  obtain ⟨⟨t₂, e₂⟩, hsecond, hrun⟩ := Outcome.bind_eq_ok.mp hrun
  obtain ⟨scanned, hscan, hrun⟩ := Outcome.bind_eq_ok.mp hrun
  obtain ⟨ranged, hrange, hrun⟩ := Outcome.bind_eq_ok.mp hrun
  simp only [Except.ok.injEq, Prod.mk.injEq] at hrun
  obtain ⟨rfl, rfl, rfl, rfl⟩ := hrun
  exact ⟨t₀, t₂, hnew, .snoc (.snoc (.nil t₀) hfirst) hsecond, hscan, hrange⟩

end FlexQL.Proofs
