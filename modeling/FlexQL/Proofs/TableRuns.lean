import FlexQL.Proofs.Insert
import FlexQL.Proofs.Sweep
import FlexQL.Proofs.Wrapped

/-!
# What the index answers after any calls of a table

Insertions add a record and sweeps clear the flags of records that have
expired. Seen from a time that is no earlier than any of the calls the flags
do not matter: what a sweep has taken away has expired by then as well. So the
records are those of the insertions, and the index leads to the last one of
every key.
-/

namespace FlexQL.Proofs

open Lib FlexQL.Ref FlexQL.Spec

/-! ## Records and insertions -/

section Records

variable {ttl : UInt32} {later : Int64}

/-- The record is the one an insertion stored; if it was swept, then because
it had expired. -/
structure Traces (ttl : UInt32) (later : Int64) (op : Int64 × Row) (r : Record) : Prop where
  values : r.values = op.2
  expiry : r.expiry = expiryAt ttl op.1
  swept : r.valid = false → (0 < r.expiry && r.expiry < later) = true

theorem Traces.sweep {op : Int64 × Row} {r : Record} (h : Traces ttl later op r) {now : Int64}
    (hnow : now ≤ later) : Traces ttl later op (r.sweep now) := by
  refine ⟨h.values, h.expiry, fun hl => ?_⟩
  change (0 < r.expiry && r.expiry < later) = true
  change r.live now = false at hl
  cases hv : r.valid with
  | false => exact h.swept hv
  | true =>
      rw [Record.live, hv, Bool.true_and, Bool.not_eq_false', Bool.and_eq_true] at hl
      rw [Bool.and_eq_true]
      refine ⟨hl.1, decide_eq_true ?_⟩
      have hlt := of_decide_eq_true hl.2
      rw [Int64.lt_iff_toInt_lt] at hlt ⊢
      rw [Int64.le_iff_toInt_le] at hnow
      omega

theorem Traces.live {op : Int64 × Row} {r : Record} (h : Traces ttl later op r) :
    r.live later = !(0 < expiryAt ttl op.1 && expiryAt ttl op.1 < later) := by
  rw [Record.live, ← h.expiry]
  cases hv : r.valid with
  | true => rfl
  | false =>
      rw [h.swept hv]
      rfl

end Records

/-! ## Runs -/

section Runs

variable {s : Schema} {ttl : UInt32} {later : Int64} {t : Table}

/-- Every sequence of calls runs through, and the table stores what was
inserted. -/
theorem runTable_traces {ops : List TableOp} (hlater : ∀ op ∈ ops, op.time ≤ later)
    {stored : List (Int64 × Row)} {rs : List Record} (hrep : Rep t rs) (hs : t.schema = s)
    (httl : t.ttlSeconds = ttl) (htraces : List.Forall₂ (Traces ttl later) stored rs) :
    ∃ t' rs', runTable t ops = .ok t' ∧ Rep t' rs' ∧ t'.schema = s ∧
      List.Forall₂ (Traces ttl later) (stored ++ admitted s ops) rs' := by
  induction ops generalizing t stored rs with
  | nil => exact ⟨t, rs, rfl, hrep, hs, by rwa [admitted, List.filterMap_nil, List.append_nil]⟩
  | cons op ops ih =>
      have hops := fun o ho => hlater o (List.mem_cons_of_mem op ho)
      cases op with
      | insert now row =>
          cases hv : s.validateRow row with
          | some e =>
              have hskip : admitted s (.insert now row :: ops) = admitted s ops := by
                simp [admitted, hv]
              rw [runTable, insert_rejected (hs ▸ hv), hskip]
              exact ih hops hrep hs httl htraces
          | none =>
              obtain ⟨t₁, hins, hrep₁, hs₁, httl₁⟩ := hrep.insert_stored (hs ▸ hv) now
              have hadd : admitted s (.insert now row :: ops) = (now, row) :: admitted s ops := by
                simp [admitted, hv]
              have hnew : List.Forall₂ (Traces ttl later) (stored ++ [(now, row)])
                  (rs ++ [recordOf t.ttlSeconds (now, row)]) :=
                List.rel_append htraces
                  (.cons ⟨rfl, by rw [httl]; rfl, fun h => absurd h (by simp [recordOf])⟩ .nil)
              rw [runTable, hins, hadd, ← List.singleton_append, ← List.append_assoc]
              exact ih hops hrep₁ (hs₁.trans hs) (httl₁.trans httl) hnew
      | cleanup now =>
          obtain ⟨t₁, hclean, hrep₁, -, hs₁, httl₁⟩ := hrep.cleanupExpired now
          have hnow : now ≤ later := hlater (.cleanup now) List.mem_cons_self
          have hswept : List.Forall₂ (Traces ttl later) stored (rs.map (·.sweep now)) :=
            List.forall₂_map_right_iff.mpr (htraces.imp fun _ _ h => h.sweep hnow)
          rw [runTable, hclean]
          exact ih hops hrep₁ (hs₁.trans hs) (httl₁.trans httl) hswept

theorem admitted_length (s : Schema) (ops : List TableOp) :
    (admitted s ops).length ≤ ops.length := List.length_filterMap_le ..

theorem mem_admitted {ops : List TableOp} {e : Int64 × Row} (h : e ∈ admitted s ops) :
    TableOp.insert e.1 e.2 ∈ ops := by
  obtain ⟨op, hop, he⟩ := List.mem_filterMap.mp h
  cases op with
  | cleanup now => exact absurd he (by simp)
  | insert now row =>
      simp only [Option.ite_none_right_eq_some, Option.some.injEq] at he
      rwa [← he.2]

end Runs

/-! ## The answers -/

section Answers

variable {t : Table} {rs : List Record} {now : Int64} {v : Value}

/-- At most one entry is tied with a key. -/
theorem selected_eq_lookup {P : Value → Prop} (o : WeakOrderOn P Value.lt Value.eq)
    {es : List (Value × Nat)} (hP : ∀ e ∈ es, P e.1)
    (hasc : es.Pairwise fun e e' => e.1.lt e'.1 = true) (hv : P v) :
    selected es (fun k => k.eq v) = (lookup Value.eq es v).toList := by
  induction es with
  | nil => rfl
  | cons e es ih =>
      obtain ⟨hhead, htail⟩ := List.pairwise_cons.mp hasc
      have hPe := hP e List.mem_cons_self
      have hrest := fun x hx => hP x (List.mem_cons_of_mem e hx)
      cases he : e.1.eq v with
      | false =>
          rw [selected, List.filter_cons_of_neg (by simp [he]), lookup,
            List.find?_cons_of_neg (by simp [he])]
          exact ih hrest htail
      | true =>
          have hnone : ∀ x ∈ es, ¬ x.1.eq v = true := by
            intro x hx heq
            have hlt := hhead x hx
            rw [o.lt_congr_left hPe hv (hrest x hx) he] at hlt
            exact absurd heq (by simp [o.ne_of_gt (hrest x hx) hv hlt])
          rw [selected, List.filter_cons_of_pos (by simp [he]), List.filter_eq_nil_iff.mpr hnone,
            lookup, List.find?_cons_of_pos (by simp [he])]
          rfl

/-- A lookup is a range query for equality. -/
theorem Rep.indexLookup (h : Rep t rs) (hty : Exact (pkType t.schema)) (hlen : rs.length < 2 ^ 63)
    (hv : v.type = pkType t.schema) (now : Int64) :
    t.indexLookup now v = t.indexRange now .eq v [] := by
  have o := valueOrder (pkType t.schema)
  have hP := comparable_of_exact hty hv
  have hops : ∀ op ∈ indexOps (rs.map (·.values)), op.1.type = pkType t.schema :=
    indexOps_keys h.key_type
  obtain ⟨index, leaves, uppers, hbuild, hi, hc⟩ := insertAll_inv o (pkType t.schema)
    fun op hop => comparable_of_exact hty (hops op hop)
  obtain rfl := Except.ok.inj (hbuild.symm.trans h.index)
  rw [Table.indexLookup, hi.find o hP, Outcome.bind_ok, Table.indexRange]
  simp only [hi.rangeEq o hP, Outcome.bind_ok,
    selected_eq_lookup o hi.contents_typed (hi.ascending o) hP]
  cases hl : lookup Value.eq (contents t.pkIndex.pool leaves) v with
  | none => rfl
  | some r =>
      -- the row id is a position in the list of rows
      have hr : r < rs.length := by
        rw [hc, lookup_stored hty hops hv] at hl
        obtain ⟨⟨row, i⟩, hrow, he⟩ := List.mem_map.mp (latest_mem hl)
        obtain rfl : i = r := congrArg Prod.snd he
        have := List.snd_lt_of_mem_zipIdx hrow
        simpa using this
      have hid : BPTree.toInt64 r = (r : Int) := toInt64_of_lt (by omega)
      simp only [hid, Option.toList_some, feed, Table.collect, Outcome.bind_ok,
        Int.natCast_nonneg, if_true, Int.toNat_natCast, Table.readSelected, List.isEmpty_nil,
        List.nil_append]

theorem forall₂_getElem? {α β : Type} {R : α → β → Prop} {l : List α} {l' : List β}
    (h : List.Forall₂ R l l') (i : Nat) : Option.Rel R l[i]? l'[i]? := by
  induction h generalizing i with
  | nil => exact .none
  | cons hab _ ih =>
      cases i with
      | zero => exact .some hab
      | succ i => exact ih i

variable {ttl : UInt32} {later : Int64} {stored : List (Int64 × Row)}

/-- The insertion is not expired by the test of `is_row_valid`. -/
def fresh (ttl : UInt32) (later : Int64) (op : Int64 × Row) : Bool :=
  !(0 < expiryAt ttl op.1 && expiryAt ttl op.1 < later)

theorem seen_traces (htr : List.Forall₂ (Traces ttl later) stored rs) (ids : List Nat) :
    seen later rs ids = (ids.filterMap fun i => stored[i]?.filter (fresh ttl later)).map (·.2) := by
  rw [seen, List.map_filterMap]
  refine List.filterMap_congr fun i _ => ?_
  have hrel := forall₂_getElem? htr i
  generalize stored[i]? = e, rs[i]? = r at hrel
  cases hrel with
  | none => rfl
  | some h =>
      have hl := h.live
      rw [Option.filter_some, Option.filter_some, hl, fresh]
      split
      · exact congrArg some h.values
      · rfl

/-- The answer of a range query in terms of the insertions. -/
theorem Rep.indexRange_traces (h : Rep t rs) (hty : Exact (pkType t.schema))
    (htr : List.Forall₂ (Traces ttl later) stored rs) (op : CmpOp) {v : Value}
    (hv : v.type = pkType t.schema) : ∃ es : List (Int64 × Row),
      es.Pairwise (fun e e' => (key e.2).lt (key e'.2) = true) ∧
      (∀ e, e ∈ es ↔ IsLatest stored e ∧ op.holds (key e.2) v = true ∧
        fresh ttl later e = true) ∧
      ∀ cols, (∀ i ∈ cols, i < t.schema.columns.length) →
        t.indexRange later op v cols = .ok (es.map fun e => project cols e.2) := by
  have htype : ∀ {i : Nat} {e : Int64 × Row}, stored[i]? = some e →
      ∃ r, rs[i]? = some r ∧ r.values = e.2 ∧ (key e.2).type = pkType t.schema := by
    intro i e he
    have hrel := forall₂_getElem? htr i
    rw [he] at hrel
    generalize hr : rs[i]? = r at hrel
    cases hrel with
    | some h' =>
        refine ⟨_, rfl, h'.values, ?_⟩
        rw [← h'.values]
        exact h.key_type _ (List.mem_map_of_mem (List.mem_of_getElem? hr))
  have htrace : ∀ {i : Nat} {r : Record}, rs[i]? = some r →
      ∃ e, stored[i]? = some e ∧ r.values = e.2 := by
    intro i r hr
    have hrel := forall₂_getElem? htr i
    rw [hr] at hrel
    generalize stored[i]? = e at hrel
    cases hrel with
    | some h' => exact ⟨_, rfl, h'.values⟩
  have hkeys : ∀ r ∈ rs, Comparable (pkType t.schema) (key r.values) := fun r hr =>
    comparable_of_exact hty (h.key_type _ (List.mem_map_of_mem hr))
  obtain ⟨ids, hasc, hids, hans⟩ := h.indexRange_tied hkeys later op (comparable_of_exact hty hv)
  refine ⟨ids.filterMap fun i => stored[i]?.filter (fresh ttl later), ?_, fun e => ?_,
    fun cols hcols => ?_⟩
  · refine List.Pairwise.filterMap _ (fun i j hij e he e' he' => ?_) hasc
    obtain ⟨r, hr, hval, -⟩ := htype (Option.filter_eq_some_iff.mp he).1
    obtain ⟨r', hr', hval', -⟩ := htype (Option.filter_eq_some_iff.mp he').1
    rw [← hval, ← hval']
    exact hij r r' hr hr'
  · -- the last record of its key is the last insertion of its key
    have hlast : ∀ {i : Nat}, stored[i]? = some e → (i ∈ ids ↔ op.holds (key e.2) v = true ∧
        ∀ (j : Nat) (e' : Int64 × Row), i < j → stored[j]? = some e' → ¬ key e'.2 = key e.2) := by
      intro i he
      obtain ⟨r, hr, hval, hety⟩ := htype he
      rw [hids]
      constructor
      · rintro ⟨r₁, hr₁, hop, hlast⟩
        obtain rfl := Option.some.inj (hr.symm.trans hr₁)
        refine ⟨hval ▸ hop, fun j e' hj he' heq => ?_⟩
        obtain ⟨r', hr', hval', hety'⟩ := htype he'
        refine hlast j r' hj hr' ?_
        rw [hval, hval']
        exact (eq_iff_of_exact hty hety' hety).mpr heq
      · rintro ⟨hop, hlast⟩
        refine ⟨r, hr, by rw [hval]; exact hop, fun j r' hj hr' heq => ?_⟩
        obtain ⟨e', he', hval'⟩ := htrace hr'
        obtain ⟨-, -, -, hety'⟩ := htype he'
        refine hlast j e' hj he' ?_
        rw [hval, hval'] at heq
        exact (eq_iff_of_exact hty hety' hety).mp heq
    have hsplit : IsLatest stored e ↔ ∃ i : Nat, stored[i]? = some e ∧
        ∀ (j : Nat) (e' : Int64 × Row), i < j → stored[j]? = some e' → ¬ key e'.2 = key e.2 :=
      (exists_last_iff_split (R := fun e' e : Int64 × Row => key e'.2 = key e.2)).symm
    rw [hsplit, List.mem_filterMap]
    simp only [Option.filter_eq_some_iff]
    constructor
    · rintro ⟨i, hi, he, hfresh⟩
      obtain ⟨hop, hl⟩ := (hlast he).mp hi
      exact ⟨⟨i, he, hl⟩, hop, hfresh⟩
    · rintro ⟨⟨i, he, hl⟩, hop, hfresh⟩
      exact ⟨i, (hlast he).mpr ⟨hop, hl⟩, he, hfresh⟩
  · rw [hans cols hcols, seen_traces htr, List.map_map]
    rfl

end Answers

end FlexQL.Proofs
