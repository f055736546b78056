import FlexQL.Proofs.Table

/-!
# Sweeping a table

`cleanup_expired` clears the flag of the rows that have expired and leaves
everything else as it is, so a swept table stores the swept records.
-/

namespace FlexQL.Proofs

open Lib FlexQL.Ref FlexQL.Spec

section Records

variable {r : Record} {now : Int64}

theorem sweep_of_live (h : r.live now = r.valid) : r.sweep now = r := by
  rw [Record.sweep, h]

/-- The rows a sweep counts. -/
def swept (now : Int64) (r : Record) : Bool := r.valid && !r.live now

theorem live_of_expired (h : (0 < r.expiry && r.expiry < now) = true) : r.live now = false := by
  rw [Record.live, h, Bool.not_true, Bool.and_false]

theorem live_of_unexpired (h : ¬ (0 < r.expiry && r.expiry < now) = true) :
    r.live now = r.valid := by
  rw [Record.live, Bool.eq_false_iff.mpr h, Bool.not_false, Bool.and_true]

/-- Sweeping takes away what it counts. -/
theorem countP_sweep (now : Int64) (rs : List Record) :
    (rs.map (·.sweep now)).countP (·.valid) + rs.countP (swept now) = rs.countP (·.valid) := by
  induction rs with
  | nil => rfl
  | cons r rs ih =>
      rw [List.map_cons, List.countP_cons, List.countP_cons, List.countP_cons, ← ih]
      cases hv : r.valid <;> cases hl : r.live now <;> simp [Record.sweep, swept, hv, hl] <;>
        first | omega | (rw [Record.live, hv] at hl; simp at hl)

end Records

section Memory

variable {s : Schema} {a : Arena} {p : Ptr} {r : Record}

/-- Clearing the flag of a row. -/
theorem RowAt.clear (h : RowAt s a p r) :
    ∃ a', a.write p (extent s.columns + 8) [0] = .ok a' ∧
      RowAt s a' p { r with valid := false } ∧
      Changed a a' p (extent s.columns + 8) (extent s.columns + 9) := by
  obtain ⟨a', hw, hold, hch⟩ := write_spec (w := [0]) h.valid.inBounds
  refine ⟨a', hw, ⟨h.values.imp fun o w _ hhi hw => ?_, ?_, hold⟩, hch⟩
  · exact hch.frame _ _ _ (.inr (.inl (by omega))) hw
  · exact hch.frame _ _ _ (.inr (.inl (by rw [Bytes.le_length]; omega))) h.expiry

theorem Outside.symm {q : Ptr} {size : Nat} (h : Outside q 0 size p 0 size) :
    Outside p 0 size q 0 size := by
  rcases h with h | h | h
  · exact .inl h.symm
  · exact .inr (.inr (by omega))
  · exact .inr (.inl (by omega))

end Memory

section Loop

variable {t : Table} {p : Ptr} {r : Record}

/-- What changes to the rows at `ps` leave alone. -/
structure Elsewhere (s : Schema) (a a' : Arena) (ps : List Ptr) : Prop where
  rows : ∀ q r, (∀ p ∈ ps, Outside q 0 (extent s.columns + 9) p 0 (extent s.columns + 9)) →
    RowAt s a q r → RowAt s a' q r
  blocks : ∀ size qs, Blocks a size qs → Blocks a' size qs

/-- One round of the loop. -/
theorem RowAt.cleanup (h : RowAt t.schema t.arena p r) (hf : Fits t.schema) (now : Int64)
    (ps : List Ptr) (n : Nat) :
    ∃ a, Table.cleanupRows now (p :: ps) t n =
        Table.cleanupRows now ps { t with arena := a } (n + if swept now r then 1 else 0) ∧
      RowAt t.schema a p (r.sweep now) ∧ Elsewhere t.schema t.arena a [p] := by
  have hstay : Elsewhere t.schema t.arena t.arena [p] :=
    ⟨fun _ _ _ hq => hq, fun _ _ hq => hq⟩
  rw [Table.cleanupRows, h.readValid hf, Outcome.bind_ok, h.readExpiry hf]
  cases hv : r.valid with
  | false =>
      have hl : r.live now = r.valid := by rw [Record.live, hv, Bool.false_and]
      refine ⟨t.arena, ?_, (sweep_of_live hl).symm ▸ h, hstay⟩
      simp [swept, hv]
  | true =>
      by_cases he : (0 < r.expiry && r.expiry < now) = true
      · obtain ⟨a, hw, hrow, hch⟩ := h.clear
        have hl := live_of_expired he
        refine ⟨a, ?_, by rw [Record.sweep, hl]; exact hrow, ⟨fun q r' hout hq => ?_,
          fun size qs hb => hb.changed hch⟩⟩
        · simp only [if_true, Outcome.bind_ok, he, hf.validOffset, hw, swept, hv, hl,
            Bool.not_false, Bool.and_self]
        · exact hq.changed hch ((hout p (List.mem_singleton_self p)).mono (Nat.zero_le _)
            (Nat.le_refl _))
      · have hl := live_of_unexpired he
        refine ⟨t.arena, ?_, (sweep_of_live hl).symm ▸ h, hstay⟩
        simp only [if_true, Outcome.bind_ok, if_neg he, swept, hl, Bool.and_not_self,
          Bool.false_eq_true, if_false, Nat.add_zero]

/-- The loop. -/
theorem cleanupRows_spec (hf : Fits t.schema) (now : Int64) {ps : List Ptr} {rs : List Record}
    (hapart : ps.Pairwise fun p q =>
      Outside p 0 (extent t.schema.columns + 9) q 0 (extent t.schema.columns + 9))
    (hrows : List.Forall₂ (RowAt t.schema t.arena) ps rs) (n : Nat) :
    ∃ a, Table.cleanupRows now ps t n =
        .ok ({ t with arena := a }, n + rs.countP (swept now)) ∧
      List.Forall₂ (RowAt t.schema a) ps (rs.map (·.sweep now)) ∧
      Elsewhere t.schema t.arena a ps := by
  induction ps generalizing t rs n with
  | nil =>
      cases hrows
      exact ⟨t.arena, rfl, .nil, fun _ _ _ hq => hq, fun _ _ hq => hq⟩
  | cons p ps ih =>
      obtain ⟨r, rs, hp, hps, rfl⟩ := List.forall₂_cons_left_iff.mp hrows
      obtain ⟨hhead, htail⟩ := List.pairwise_cons.mp hapart
      obtain ⟨a₁, hstep, hp₁, hel⟩ := hp.cleanup hf now ps n
      have hps₁ : List.Forall₂ (RowAt t.schema a₁) ps rs := by
        refine List.forall₂_iff_get.mpr ⟨hps.length_eq, fun i hi hi' => ?_⟩
        refine hel.rows _ _ (fun q hq => ?_) ((List.forall₂_iff_get.mp hps).2 i hi hi')
        rw [List.mem_singleton.mp hq]
        exact (hhead _ (List.get_mem ps ⟨i, hi⟩)).symm
      obtain ⟨a, hrun, hswept, hel'⟩ := ih (t := { t with arena := a₁ }) hf htail hps₁
        (n + if swept now r then 1 else 0)
      refine ⟨a, ?_, .cons (hel'.rows p _ hhead hp₁) hswept, fun q r' hout hq => ?_,
        fun size qs hb => hel'.blocks size qs (hel.blocks size qs hb)⟩
      · rw [hstep, hrun, List.countP_cons, Nat.add_assoc, Nat.add_comm (rs.countP _)]
      · exact hel'.rows q r' (fun p' hp' => hout p' (List.mem_cons_of_mem _ hp'))
          (hel.rows q r' (fun p' hp' => hout p' (List.mem_singleton.mp hp' ▸ List.mem_cons_self))
            hq)

/-- The loop writes to the memory of the table and changes nothing else. -/
theorem cleanupRows_frame {now : Int64} {ps : List Ptr} {t' : Table} {n n' : Nat}
    (h : Table.cleanupRows now ps t n = .ok (t', n')) : ∃ a, t' = { t with arena := a } := by
  induction ps generalizing t n with
  | nil => exact ⟨t.arena, (Prod.mk.inj (Except.ok.inj h)).1.symm⟩
  | cons p ps ih =>
      rw [Table.cleanupRows] at h
      obtain ⟨valid, -, h⟩ := Outcome.bind_eq_ok.mp h
      split at h
      · obtain ⟨expiry, -, h⟩ := Outcome.bind_eq_ok.mp h
        split at h
        · obtain ⟨a, -, h⟩ := Outcome.bind_eq_ok.mp h
          obtain ⟨a', rfl⟩ := ih h
          exact ⟨a', rfl⟩
        · exact ih h
      · exact ih h

theorem cleanupExpired_frame {now : Int64} {t' : Table} {n : Nat}
    (h : t.cleanupExpired now = .ok (t', n)) :
    t'.schema = t.schema ∧ t'.rows = t.rows ∧ t'.pkIndex = t.pkIndex := by
  obtain ⟨⟨t₁, k⟩, hloop, hk⟩ := Outcome.bind_eq_ok.mp h
  obtain ⟨a, rfl⟩ := cleanupRows_frame hloop
  obtain ⟨rfl, -⟩ := Prod.mk.inj (Except.ok.inj hk)
  exact ⟨rfl, rfl, rfl⟩

/-- A swept table stores the swept records. -/
theorem Rep.cleanupExpired {rs : List Record} (h : Rep t rs) (now : Int64) :
    ∃ t', t.cleanupExpired now = .ok (t', rs.countP (swept now)) ∧
      Rep t' (rs.map (·.sweep now)) ∧ t'.name = t.name ∧ t'.schema = t.schema ∧
      t'.ttlSeconds = t.ttlSeconds := by
  obtain ⟨a, hrun, hrows, hel⟩ := cleanupRows_spec h.fits now h.blocks.apart h.rows 0
  rw [Nat.zero_add] at hrun
  have hclean : t.cleanupExpired now = .ok ({ t with
      arena := a
      rowCount := t.rowCount - UInt64.ofNat (rs.countP (swept now)) },
      rs.countP (swept now)) := by
    rw [Table.cleanupExpired, hrun, Outcome.bind_ok]
  refine ⟨_, hclean, ⟨h.fits, h.rowSize, hel.blocks _ _ h.blocks, hrows, ?_, ?_⟩, rfl, rfl, rfl⟩
  · rw [List.map_map]
    exact h.index
  · show t.rowCount - UInt64.ofNat (rs.countP (swept now)) = _
    rw [h.count, ← countP_sweep now rs, UInt64.ofNat_add, UInt64.add_sub_cancel]

end Loop

end FlexQL.Proofs
