import FlexQL.Lib.Keyed
import FlexQL.Spec.Interleaving

/-!
# The order of the log and the order of execution

Statements on different tables swap. So a call that is executed while no call
before it in the log waits for the same table could as well have been executed
in its place in the log: the executed calls lead to the same catalog in the
order of the log.
-/

namespace FlexQL.Proofs

open Lib FlexQL.Ref FlexQL.Spec

/-! ## Statements on different tables -/

section Swaps

variable {sql sql' name : Bytes}

theorem create_at (stmt : CreateTableStmt) :
    Keyed.At Catalog.create (Bytes.toUpper stmt.tableName) stmt := by
  intro c c' ok h
  rw [Catalog.create] at h
  split at h
  · next hsome =>
      obtain ⟨rfl, rfl⟩ := Prod.mk.inj (Except.ok.inj h)
      refine ⟨none, rfl, fun d hd => ?_⟩
      rw [Catalog.create, if_pos (by rw [hd]; exact hsome)]
      rfl
  · next hnone =>
      split at h
      · next e hschema =>
          obtain ⟨rfl, rfl⟩ := Prod.mk.inj (Except.ok.inj h)
          refine ⟨none, rfl, fun d hd => ?_⟩
          rw [Catalog.create, if_neg (by rw [hd]; exact hnone), hschema]
          rfl
      · next schema hschema =>
          obtain ⟨pk, hpk, h⟩ := Outcome.bind_eq_ok.mp h
          obtain ⟨rfl, rfl⟩ := Prod.mk.inj (Except.ok.inj h)
          refine ⟨some ⟨schema, []⟩, rfl, fun d hd => ?_⟩
          rw [Catalog.create, if_neg (by rw [hd]; exact hnone), hschema]
          simp only [hpk, Outcome.bind_ok]
          rfl

variable [FloatLib]

theorem insert_at (stmt : InsertStmt) :
    Keyed.At Catalog.insert (Bytes.toUpper stmt.tableName) stmt := by
  intro c c' ok h
  rw [Catalog.insert] at h
  cases hlook : c.lookup (Bytes.toUpper stmt.tableName) with
  | none =>
      rw [hlook] at h
      obtain ⟨rfl, rfl⟩ := Prod.mk.inj (Except.ok.inj h)
      refine ⟨none, rfl, fun d hd => ?_⟩
      rw [Catalog.insert, hd]
      rfl
  | some r =>
      rw [hlook] at h
      obtain ⟨⟨r', ok'⟩, hins, h⟩ := Outcome.bind_eq_ok.mp h
      obtain ⟨rfl, rfl⟩ := Prod.mk.inj (Except.ok.inj h)
      refine ⟨some r', rfl, fun d hd => ?_⟩
      rw [Catalog.insert, hd]
      simp only [hins, Outcome.bind_ok]
      rfl

/-- A text is at the table it writes to, and anywhere if it writes to none. -/
theorem apply_at (h : ∀ n, target sql = some n → n = name) :
    Keyed.At Catalog.apply name sql := by
  cases hparse : parseSql sql with
  | error f =>
      intro c c' ok hrun
      obtain ⟨_, hparse', _⟩ := Outcome.bind_eq_ok.mp hrun
      exact absurd (hparse.symm.trans hparse') (by simp)
  | ok parsed =>
      cases parsed with
      | error e => exact Keyed.at_of_idle fun c => by rw [Catalog.apply, hparse]; rfl
      | ok stmt =>
          cases stmt with
          | createTable stmt =>
              obtain rfl := h _ (by rw [target, hparse])
              exact (create_at stmt).congr fun c => by rw [Catalog.apply, hparse]; rfl
          | insert stmt =>
              obtain rfl := h _ (by rw [target, hparse])
              exact (insert_at stmt).congr fun c => by rw [Catalog.apply, hparse]; rfl
          | select stmt => exact Keyed.at_of_idle fun c => by rw [Catalog.apply, hparse]; rfl

theorem swaps_of_not_conflict (h : ¬ Conflict sql sql') :
    Actions.Swaps Catalog.apply sql sql' := by
  have hat : ∀ {sql n : Bytes}, target sql = some n → Keyed.At Catalog.apply n sql :=
    fun ht => apply_at fun n' hn' => Option.some.inj (hn'.symm.trans ht)
  have hfree : ∀ {sql : Bytes} (n : Bytes), target sql = none → Keyed.At Catalog.apply n sql :=
    fun n ht => apply_at fun n' hn' => absurd (hn'.symm.trans ht) (by simp)
  cases ht : target sql with
  | none =>
      cases ht' : target sql' with
      | none => exact (hfree [0] ht).swaps (hfree [] ht') (by decide)
      | some n' => exact (hfree (0 :: n') ht).swaps (hat ht') (List.cons_ne_self 0 n')
  | some n =>
      cases ht' : target sql' with
      | none => exact (hat ht).swaps (hfree (0 :: n) ht') (List.cons_ne_self 0 n).symm
      | some n' =>
          refine (hat ht).swaps (hat ht') fun hn => h ⟨n, ht, ?_⟩
          rw [ht', hn]

end Swaps

/-! ## The calls in the order of the log -/

/-- The text and the answer of a logged call that was executed. -/
def performed (k : OpenCall) : Option (Bytes × Bool) :=
  k.lsn.bind fun _ => k.answer.map fun ok => (k.sql, ok)

theorem performed_unlogged {k : OpenCall} (h : k.lsn = none) : performed k = none := by
  rw [performed, h]
  rfl

theorem performed_unanswered {k : OpenCall} (h : k.answer = none) : performed k = none := by
  rw [performed, h]
  cases k.lsn <;> rfl

/-- No executed call has overtaken one that waits for its table. -/
def NoOvertaking (calls : List OpenCall) : Prop :=
  calls.Pairwise fun k k' => k.Waiting → ∀ x, performed k' = some x → ¬ Conflict k.sql k'.sql

section NoOvertaking

variable {calls pre post : List OpenCall} {k k' : OpenCall}

theorem NoOvertaking.log (h : NoOvertaking calls) (hk : k.answer = none) :
    NoOvertaking (calls ++ [k]) := by
  refine List.pairwise_append.mpr ⟨h, List.pairwise_singleton _ _, fun a _ b hb _ x hx => ?_⟩
  rw [List.mem_singleton.mp hb, performed_unanswered hk] at hx
  exact absurd hx (by simp)

/-- A call returns. -/
theorem NoOvertaking.answer (h : NoOvertaking (pre ++ k :: post)) (hk' : ¬ k'.Waiting)
    (hpre : ∀ a ∈ pre, a.Waiting → ∀ x, performed k' = some x → ¬ Conflict a.sql k'.sql) :
    NoOvertaking (pre ++ k' :: post) := by
  obtain ⟨hl, hr, hcross⟩ := List.pairwise_append.mp h
  refine List.pairwise_append.mpr
    ⟨hl, List.pairwise_cons.mpr ⟨?_, (List.pairwise_cons.mp hr).2⟩, ?_⟩
  · exact fun _ _ hw => absurd hw hk'
  · intro a ha b hb
    rcases List.mem_cons.mp hb with rfl | hb
    · exact hpre a ha
    · exact hcross a ha b (List.mem_cons_of_mem k hb)

end NoOvertaking

section Journal

variable [FloatLib]

/-- The executed calls lead from `c₁` to `c` in the order of the log. -/
structure Journal (c₁ : Catalog) (calls : List OpenCall) (c : Catalog) : Prop where
  history : Actions.Runs Catalog.apply c₁ (calls.filterMap performed) c
  order : NoOvertaking calls

variable {c₁ c c' : Catalog} {calls pre post : List OpenCall} {k : OpenCall}

theorem journal_nil (c : Catalog) : Journal c [] c := ⟨rfl, List.Pairwise.nil⟩

theorem Journal.log (h : Journal c₁ calls c) (hk : k.answer = none) :
    Journal c₁ (calls ++ [k]) c := by
  refine ⟨?_, h.order.log hk⟩
  rw [List.filterMap_append, List.filterMap_cons_none (performed_unanswered hk), List.filterMap_nil,
    List.append_nil]
  exact h.history

/-- A call that was not logged returns. -/
theorem Journal.query (h : Journal c₁ (pre ++ k :: post) c) (hk : k.lsn = none) (ok : Bool) :
    Journal c₁ (pre ++ { k with answer := some ok } :: post) c := by
  have hk' : performed { k with answer := some ok } = none := performed_unlogged hk
  refine ⟨?_, h.order.answer ?_ fun a _ _ x hx => ?_⟩
  · have hist := h.history
    rw [List.filterMap_append, List.filterMap_cons_none (performed_unlogged hk)] at hist
    rwa [List.filterMap_append, List.filterMap_cons_none hk']
  · exact fun hw => absurd hw.2 (by simp)
  · exact absurd (hx.symm.trans hk') (by simp)

/-- A logged call is executed that overtakes no other for its table: it could
have been executed in its place in the log. -/
theorem Journal.run (h : Journal c₁ (pre ++ k :: post) c) (hk : k.Waiting)
    (hpre : ∀ a ∈ pre, a.Waiting → ¬ Conflict a.sql k.sql) {ok : Bool}
    (hrun : c.apply k.sql = .ok (c', ok)) :
    Journal c₁ (pre ++ { k with answer := some ok } :: post) c' := by
  obtain ⟨lsn, hlsn⟩ := Option.isSome_iff_exists.mp hk.1
  have hk' : performed { k with answer := some ok } = some (k.sql, ok) := by
    simp only [performed, hlsn]
    rfl
  refine ⟨?_, h.order.answer ?_ fun a ha hw _ _ => hpre a ha hw⟩
  · have hist := h.history
    rw [List.filterMap_append, List.filterMap_cons_none (performed_unanswered hk.2)] at hist
    obtain ⟨c₂, hleft, hright⟩ := Actions.runs_append.mp hist
    rw [List.filterMap_append, List.filterMap_cons_some hk']
    refine Actions.runs_append.mpr ⟨c₂, hleft, hright.to_front ?_ hrun⟩
    -- what was executed behind it in the log writes to other tables
    intro x hx
    obtain ⟨b, hb, hbx⟩ := List.mem_filterMap.mp hx
    have hcross := (List.pairwise_cons.mp (List.pairwise_append.mp h.order).2.1).1 b hb hk x hbx
    obtain ⟨_, _, hbx'⟩ := Option.bind_eq_some_iff.mp hbx
    obtain ⟨ok', _, rfl⟩ := Option.map_eq_some_iff.mp hbx'
    exact swaps_of_not_conflict fun ⟨name, hn, hn'⟩ => hcross ⟨name, hn', hn⟩
  · exact fun hw => absurd hw.2 (by simp)

end Journal

end FlexQL.Proofs
