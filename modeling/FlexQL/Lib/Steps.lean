import Mathlib.Data.List.Basic
import Mathlib.Tactic.Common

/-!
# Systems that take steps

A system is a relation between a state, the label of a step and the state
after it. A run is a sequence of steps with their labels in order. What each
step keeps every run keeps, and a system whose steps are each matched by one
step of another, or by none, has its runs among those of the other.
-/

namespace Lib

variable {σ ε τ δ : Type}

/-- A run from `s`, with its labels. -/
inductive Steps (step : σ → ε → σ → Prop) (s : σ) : List ε → σ → Prop where
  | nil : Steps step s [] s
  | snoc {l : List ε} {e : ε} {s₁ s₂ : σ} :
      Steps step s l s₁ → step s₁ e s₂ → Steps step s (l ++ [e]) s₂

namespace Steps

variable {step : σ → ε → σ → Prop} {s s₁ s₂ : σ} {e : ε} {l l' : List ε}

theorem single (h : step s e s₁) : Steps step s [e] s₁ := snoc nil h

theorem trans (h : Steps step s l s₁) (h' : Steps step s₁ l' s₂) : Steps step s (l ++ l') s₂ := by
  induction h' with
  | nil =>
      rw [List.append_nil]
      exact h
  | snoc _ hstep ih =>
      rw [← List.append_assoc]
      exact ih.snoc hstep

theorem cons (h : step s e s₁) (h' : Steps step s₁ l s₂) : Steps step s (e :: l) s₂ :=
  (single h).trans h'

/-- What holds at first and is kept by each step holds of every run. -/
theorem invariant {P : List ε → σ → Prop} (hstart : P [] s)
    (hstep : ∀ l s₁ e s₂, P l s₁ → step s₁ e s₂ → P (l ++ [e]) s₂) (h : Steps step s l s₁) :
    P l s₁ := by
  induction h with
  | nil => exact hstart
  | snoc _ he ih => exact hstep _ _ _ _ ih he

/-- A run of a system is one of every system that has its steps. -/
theorem mono {step' : σ → ε → σ → Prop} (hle : ∀ s e s', step s e s' → step' s e s')
    (h : Steps step s l s₁) : Steps step' s l s₁ := by
  induction h with
  | nil => exact nil
  | snoc _ he ih => exact ih.snoc (hle _ _ _ he)

/-- Steps that are matched one by one; `f` says by which, if by any. -/
theorem simulates {step' : τ → δ → τ → Prop} {R : σ → τ → Prop} {f : ε → Option δ}
    (hstep : ∀ s t e s', R s t → step s e s' →
      ∃ t', R s' t' ∧ Steps step' t (f e).toList t') {t : τ} (hR : R s t)
    (h : Steps step s l s₁) : ∃ t', R s₁ t' ∧ Steps step' t (l.filterMap f) t' := by
  induction h with
  | nil => exact ⟨t, hR, nil⟩
  | snoc _ he ih =>
      obtain ⟨t₁, hR₁, hrun⟩ := ih
      obtain ⟨t₂, hR₂, hnext⟩ := hstep _ _ _ _ hR₁ he
      refine ⟨t₂, hR₂, ?_⟩
      rw [List.filterMap_append]
      cases hf : f _ with
      | none =>
          rw [hf] at hnext
          simpa [hf] using hrun.trans hnext
      | some d =>
          rw [hf] at hnext
          simpa [hf] using hrun.trans hnext

/-- A run whose labels all meet a condition is one of the steps that do. -/
theorem restrict {P : ε → Prop} (h : Steps step s l s₁) (hl : ∀ e ∈ l, P e) :
    Steps (fun s e s' => step s e s' ∧ P e) s l s₁ := by
  induction h with
  | nil => exact nil
  | snoc _ he ih =>
      refine (ih fun e he => hl e (List.mem_append_left _ he)).snoc ⟨he, hl _ ?_⟩
      exact List.mem_append_right _ List.mem_cons_self

/-- Steps of a kind that each pay from a measure no other step adds to. -/
theorem countP_le {R : σ → Prop} {q : σ → Nat} {p : ε → Bool}
    (hstep : ∀ s e s', R s → step s e s' → R s' ∧ q s' + (if p e then 1 else 0) ≤ q s)
    (hR : R s) (h : Steps step s l s₁) : R s₁ ∧ q s₁ + l.countP p ≤ q s := by
  induction h with
  | nil => exact ⟨hR, Nat.le_refl _⟩
  | snoc _ he ih =>
      obtain ⟨hR₁, hle⟩ := ih
      obtain ⟨hR₂, hnext⟩ := hstep _ _ _ hR₁ he
      rw [List.countP_append, List.countP_singleton]
      exact ⟨hR₂, by omega⟩

end Steps

end Lib
