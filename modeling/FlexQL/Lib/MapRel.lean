import Mathlib.Data.Finmap
import Mathlib.Data.Option.Basic

/-!
# Finite maps related entry by entry

Two maps with the same keys whose entries are related key by key. A claim
about all entries of two maps is one about lookups, and an insertion on both
sides keeps it.
-/

namespace Lib

variable {κ α β γ : Type} [DecidableEq κ]

/-- Under every key both maps have nothing, or related entries. -/
def MapRel (R : κ → α → β → Prop) (m : Finmap fun _ : κ => α) (c : Finmap fun _ : κ => β) :
    Prop :=
  ∀ k, Option.Rel (R k) (m.lookup k) (c.lookup k)

namespace MapRel

variable {R : κ → α → β → Prop} {m : Finmap fun _ : κ => α} {c : Finmap fun _ : κ => β} {k : κ}

theorem empty : MapRel R ∅ ∅ := fun k => by
  rw [Finmap.lookup_empty, Finmap.lookup_empty]
  exact .none

theorem insert (h : MapRel R m c) {a : α} {b : β} (hab : R k a b) :
    MapRel R (m.insert k a) (c.insert k b) := by
  intro k'
  by_cases hk : k' = k
  · subst hk
    rw [Finmap.lookup_insert, Finmap.lookup_insert]
    exact .some hab
  · rw [Finmap.lookup_insert_of_ne _ hk, Finmap.lookup_insert_of_ne _ hk]
    exact h k'

theorem left (h : MapRel R m c) {a : α} (ha : m.lookup k = some a) :
    ∃ b, c.lookup k = some b ∧ R k a b := by
  have hk := h k
  rw [ha] at hk
  cases hc : c.lookup k with
  | none => rw [hc] at hk; cases hk
  | some b =>
      rw [hc] at hk
      cases hk with
      | some hab => exact ⟨b, rfl, hab⟩

theorem right (h : MapRel R m c) {b : β} (hb : c.lookup k = some b) :
    ∃ a, m.lookup k = some a ∧ R k a b := by
  have hk := h k
  rw [hb] at hk
  cases hm : m.lookup k with
  | none => rw [hm] at hk; cases hk
  | some a =>
      rw [hm] at hk
      cases hk with
      | some hab => exact ⟨a, rfl, hab⟩

theorem none_iff (h : MapRel R m c) : m.lookup k = none ↔ c.lookup k = none := by
  constructor
  · intro hm
    cases hc : c.lookup k with
    | none => rfl
    | some b =>
        obtain ⟨a, ha, -⟩ := h.right hc
        exact absurd (hm.symm.trans ha) (by simp)
  · intro hc
    cases hm : m.lookup k with
    | none => rfl
    | some a =>
        obtain ⟨b, hb, -⟩ := h.left hm
        exact absurd (hc.symm.trans hb) (by simp)

theorem keys_eq (h : MapRel R m c) : m.keys = c.keys := by
  ext k
  rw [Finmap.mem_keys, Finmap.mem_keys, ← not_iff_not, ← Finmap.lookup_eq_none,
    ← Finmap.lookup_eq_none]
  exact h.none_iff

theorem imp (h : MapRel R m c) {S : κ → α → β → Prop}
    (himp : ∀ k a b, m.lookup k = some a → c.lookup k = some b → R k a b → S k a b) :
    MapRel S m c := by
  intro k
  cases hm : m.lookup k with
  | none =>
      rw [h.none_iff.mp hm]
      exact .none
  | some a =>
      obtain ⟨b, hb, hab⟩ := h.left hm
      rw [hb]
      exact .some (himp k a b hm hb hab)

/-- Two maps related to a third one. -/
theorem join {m' : Finmap fun _ : κ => γ} {R' : κ → γ → β → Prop} {S : κ → α → γ → Prop}
    (h : MapRel R m c) (h' : MapRel R' m' c)
    (hjoin : ∀ k a a' b, c.lookup k = some b → R k a b → R' k a' b → S k a a') :
    MapRel S m m' := by
  intro k
  cases hc : c.lookup k with
  | none =>
      rw [h.none_iff.mpr hc, h'.none_iff.mpr hc]
      exact .none
  | some b =>
      obtain ⟨a, ha, hab⟩ := h.right hc
      obtain ⟨a', ha', hab'⟩ := h'.right hc
      rw [ha, ha']
      exact .some (hjoin k a a' b hc hab hab')

end MapRel

end Lib
