import FlexQL.Lib.Outcome

/-!
# Runs of actions

An action takes a state to a state with an answer, or stops. A run is a list
of actions one after another with the list of their answers. Two actions of
which the later one could have come first are `Swaps`; an action that swaps
with everything in a run can be moved from its end to its front.
-/

namespace Lib

namespace Actions

variable {σ α ρ ε : Type} (act : σ → α → Except ε (σ × ρ))

/-- One action after another, with the answers. -/
def runAll : σ → List α → Except ε (σ × List ρ)
  | s, [] => .ok (s, [])
  | s, a :: l => do
      let (s, r) ← act s a
      let (s, rs) ← runAll s l
      .ok (s, r :: rs)

/-- The same for actions that always answer. -/
def runPure (f : σ → α → σ × ρ) : σ → List α → σ × List ρ
  | s, [] => (s, [])
  | s, a :: l => ((runPure f (f s a).1 l).1, (f s a).2 :: (runPure f (f s a).1 l).2)

/-- The actions, each with the answer it gave, lead from `s` to `s'`. -/
def Runs : σ → List (α × ρ) → σ → Prop
  | s, [], s' => s' = s
  | s, (a, r) :: l, s' => ∃ s₁, act s a = .ok (s₁, r) ∧ Runs s₁ l s'

/-- When `b` comes right after `a`, it could have come right before it. -/
def Swaps (a b : α) : Prop :=
  ∀ ⦃s s₁ s₂ : σ⦄ ⦃ra rb : ρ⦄, act s a = .ok (s₁, ra) → act s₁ b = .ok (s₂, rb) →
    ∃ s₁', act s b = .ok (s₁', rb) ∧ act s₁' a = .ok (s₂, ra)

/-- `P` holds before every action of a run: of the actions done so far, the
state they led to, and the action. -/
def Along (P : List α → σ → α → Prop) : List α → σ → List α → Prop
  | _, _, [] => True
  | past, s, a :: l => P past s a ∧ ∀ s' r, act s a = .ok (s', r) → Along P (past ++ [a]) s' l

variable {act} {s s' s'' : σ} {a : α} {l l₁ l₂ : List α} {r : ρ} {rs rs₁ rs₂ : List ρ}

theorem runAll_cons (ha : act s a = .ok (s', r)) (hl : runAll act s' l = .ok (s'', rs)) :
    runAll act s (a :: l) = .ok (s'', r :: rs) := by
  rw [runAll, ha, Outcome.bind_ok]
  dsimp only
  rw [hl, Outcome.bind_ok]

theorem runAll_cons_ok (h : runAll act s (a :: l) = .ok (s'', rs)) : ∃ s' r rs',
    act s a = .ok (s', r) ∧ runAll act s' l = .ok (s'', rs') ∧ rs = r :: rs' := by
  obtain ⟨⟨s', r⟩, ha, hk⟩ := Outcome.bind_eq_ok.mp h
  obtain ⟨⟨s₂, rs'⟩, hl, hk⟩ := Outcome.bind_eq_ok.mp hk
  obtain ⟨rfl, rfl⟩ := Prod.mk.inj (Except.ok.inj hk)
  exact ⟨s', r, rs', ha, hl, rfl⟩

theorem runAll_length (h : runAll act s l = .ok (s', rs)) : rs.length = l.length := by
  induction l generalizing s rs with
  | nil =>
      obtain ⟨_, rfl⟩ := Prod.mk.inj (Except.ok.inj h)
      rfl
  | cons a l ih =>
      obtain ⟨s₁, r, rs', _, hl, rfl⟩ := runAll_cons_ok h
      rw [List.length_cons, List.length_cons, ih hl]

theorem runAll_append (h₁ : runAll act s l₁ = .ok (s', rs₁))
    (h₂ : runAll act s' l₂ = .ok (s'', rs₂)) :
    runAll act s (l₁ ++ l₂) = .ok (s'', rs₁ ++ rs₂) := by
  induction l₁ generalizing s rs₁ with
  | nil =>
      obtain ⟨rfl, rfl⟩ := Prod.mk.inj (Except.ok.inj h₁)
      exact h₂
  | cons a l₁ ih =>
      obtain ⟨s₁, r, rs', ha, hl, rfl⟩ := runAll_cons_ok h₁
      exact runAll_cons ha (ih hl)

/-- What every action keeps holds after a run. -/
theorem runAll_keeps {R : σ → Prop} (hstep : ∀ s a s' r, R s → act s a = .ok (s', r) → R s')
    (h : R s) (hrun : runAll act s l = .ok (s', rs)) : R s' := by
  induction l generalizing s rs with
  | nil =>
      obtain ⟨rfl, -⟩ := Prod.mk.inj (Except.ok.inj hrun)
      exact h
  | cons a l ih =>
      obtain ⟨s₁, r, rs', ha, hl, -⟩ := runAll_cons_ok hrun
      exact ih (hstep _ _ _ _ h ha) hl

/-- A quantity no action changes. -/
theorem runPure_keeps {τ : Type} {q : σ → τ} {f : σ → α → σ × ρ}
    (hstep : ∀ s a, q (f s a).1 = q s) (s : σ) (l : List α) : q (runPure f s l).1 = q s := by
  induction l generalizing s with
  | nil => rfl
  | cons a l ih => exact (ih _).trans (hstep s a)

/-- Step by step the actions return and do what `f` does: so does a run. -/
theorem runAll_simulates {τ : Type} {R : σ → τ → Prop} {f : τ → α → τ × ρ} {t : τ}
    (hstep : ∀ s t a, R s t → ∃ s', act s a = .ok (s', (f t a).2) ∧ R s' (f t a).1)
    (h : R s t) (l : List α) :
    ∃ s', runAll act s l = .ok (s', (runPure f t l).2) ∧ R s' (runPure f t l).1 := by
  induction l generalizing s t with
  | nil => exact ⟨s, rfl, h⟩
  | cons a l ih =>
      obtain ⟨s₁, ha, h₁⟩ := hstep s t a h
      obtain ⟨s', hl, h'⟩ := ih h₁
      exact ⟨s', runAll_cons ha hl, h'⟩

/-- Two kinds of actions that match in every step that meets a condition: so
do the runs that meet it all along. -/
theorem runAll_matches {τ : Type} {act' : τ → α → Except ε (τ × ρ)}
    {P : List α → σ → α → Prop} {R : List α → σ → τ → Prop} {past : List α} {t : τ}
    (hstep : ∀ past s t a, R past s t → P past s a → Outcome.Matches
      (fun x y => R (past ++ [a]) x.1 y.1 ∧ x.2 = y.2) (act s a) (act' t a))
    (h : R past s t) (hall : Along act P past s l) : Outcome.Matches
      (fun x y => R (past ++ l) x.1 y.1 ∧ x.2 = y.2) (runAll act s l) (runAll act' t l) := by
  induction l generalizing past s t with
  | nil => exact ⟨by rwa [List.append_nil], rfl⟩
  | cons a l ih =>
      have ha := hstep past s t a h hall.1
      rw [runAll, runAll]
      cases hact : act s a with
      | error e =>
          rw [hact] at ha
          cases hact' : act' t a with
          | error e' => rw [hact'] at ha; exact ha
          | ok y => rw [hact'] at ha; exact ha.elim
      | ok x =>
          obtain ⟨y, hact', hR, hr⟩ := ha.ok_left hact
          rw [hact', Outcome.bind_ok, Outcome.bind_ok]
          refine (ih hR (hall.2 _ _ hact)).bind fun x' y' hx => ?_
          rw [List.append_cons]
          exact ⟨hx.1, by rw [hr, hx.2]⟩

/-- Two runs whose actions correspond one by one: if every pair of actions
does alike, so do the runs. -/
theorem runAll_forall₂ {τ β ρ' : Type} {act' : τ → β → Except ε (τ × ρ')} {Q : α → β → Prop}
    {R : σ → τ → Prop} {S : ρ → ρ' → Prop} {t : τ} {l' : List β}
    (hstep : ∀ s t a b, R s t → Q a b → Outcome.Matches
      (fun x y => R x.1 y.1 ∧ S x.2 y.2) (act s a) (act' t b))
    (h : R s t) (hl : List.Forall₂ Q l l') : Outcome.Matches
      (fun x y => R x.1 y.1 ∧ List.Forall₂ S x.2 y.2) (runAll act s l) (runAll act' t l') := by
  induction hl generalizing s t with
  | nil => exact ⟨h, .nil⟩
  | cons hab _ ih =>
      rw [runAll, runAll]
      refine (hstep s t _ _ h hab).bind fun x y hxy => ?_
      refine (ih hxy.1).bind fun x' y' hrest => ?_
      exact ⟨hrest.1, .cons hxy.2 hrest.2⟩

/-- What every action keeps that meets a condition, holds after a run that
meets it all along. -/
theorem Along.invariant {P : List α → σ → α → Prop} {R : List α → σ → Prop} {past : List α}
    (hstep : ∀ past s a s' r, R past s → P past s a → act s a = .ok (s', r) → R (past ++ [a]) s')
    (h : R past s) (hall : Along act P past s l) (hrun : runAll act s l = .ok (s', rs)) :
    R (past ++ l) s' := by
  induction l generalizing past s rs with
  | nil =>
      obtain ⟨rfl, -⟩ := Prod.mk.inj (Except.ok.inj hrun)
      rwa [List.append_nil]
  | cons a l ih =>
      obtain ⟨s₁, r, rs', ha, hl, -⟩ := runAll_cons_ok hrun
      rw [List.append_cons]
      exact ih (hstep _ _ _ _ _ h hall.1 ha) (hall.2 _ _ ha) hl

/-- Actions that return and keep something if they meet a condition: so do
the runs that meet it all along. -/
theorem Along.returns_past {P : List α → σ → α → Prop} {R : List α → σ → Prop} {past : List α}
    (hstep : ∀ past s a, R past s → P past s a →
      ∃ s' r, act s a = .ok (s', r) ∧ R (past ++ [a]) s')
    (h : R past s) (hall : Along act P past s l) :
    ∃ s' rs, runAll act s l = .ok (s', rs) ∧ R (past ++ l) s' := by
  induction l generalizing past s with
  | nil => exact ⟨s, [], rfl, by rwa [List.append_nil]⟩
  | cons a l ih =>
      obtain ⟨s₁, r, ha, h₁⟩ := hstep past s a h hall.1
      obtain ⟨s', rs, hl, h'⟩ := ih h₁ (hall.2 _ _ ha)
      rw [List.append_cons]
      exact ⟨s', r :: rs, runAll_cons ha hl, h'⟩

theorem Along.returns {P : List α → σ → α → Prop} {R : σ → Prop} {past : List α}
    (hstep : ∀ past s a, R s → P past s a → ∃ s' r, act s a = .ok (s', r) ∧ R s')
    (h : R s) (hall : Along act P past s l) : ∃ s' rs, runAll act s l = .ok (s', rs) ∧ R s' :=
  hall.returns_past (R := fun _ => R) hstep h

/-- The condition on a run is one on its front and on what comes behind. -/
theorem Along.append {P : List α → σ → α → Prop} {past : List α}
    (hall : Along act P past s (l₁ ++ l₂)) (hrun : runAll act s l₁ = .ok (s', rs)) :
    Along act P past s l₁ ∧ Along act P (past ++ l₁) s' l₂ := by
  induction l₁ generalizing past s rs with
  | nil =>
      obtain ⟨rfl, -⟩ := Prod.mk.inj (Except.ok.inj hrun)
      rw [List.append_nil]
      exact ⟨trivial, hall⟩
  | cons a l₁ ih =>
      obtain ⟨s₁, r, rs', ha, hl, -⟩ := runAll_cons_ok hrun
      rw [List.append_cons]
      refine ⟨⟨hall.1, fun s₂ r₂ ha₂ => ?_⟩, (ih (hall.2 _ _ ha) hl).2⟩
      obtain ⟨rfl, -⟩ := Prod.mk.inj (Except.ok.inj (ha.symm.trans ha₂))
      exact (ih (hall.2 _ _ ha) hl).1

/-- A condition that is just what one action needs to keep `Q`, met all along
a run, is just what the run needs to have `Q` at every point. -/
theorem along_iff_prefixes {P : List α → σ → α → Prop} {R Q : σ → Prop} {past : List α}
    (hreturns : ∀ s a, R s → ∃ s' r, act s a = .ok (s', r) ∧ R s')
    (hstep : ∀ past s a s' r, R s → Q s → act s a = .ok (s', r) → (Q s' ↔ P past s a))
    (hR : R s) (hQ : Q s) : Along act P past s l ↔
      ∀ pre, pre <+: l → ∃ s' rs, runAll act s pre = .ok (s', rs) ∧ Q s' := by
  induction l generalizing past s with
  | nil =>
      refine ⟨fun _ pre hpre => ?_, fun _ => trivial⟩
      rw [List.prefix_nil.mp hpre]
      exact ⟨s, [], rfl, hQ⟩
  | cons a l ih =>
      obtain ⟨s₁, r, ha, hR₁⟩ := hreturns s a hR
      have hnext : Along act P past s (a :: l) ↔ P past s a ∧ Along act P (past ++ [a]) s₁ l := by
        refine and_congr_right fun _ => ⟨fun h => h s₁ r ha, fun h s' r' ha' => ?_⟩
        obtain ⟨rfl, -⟩ := Prod.mk.inj (Except.ok.inj (ha.symm.trans ha'))
        exact h
      rw [hnext]
      constructor
      · intro ⟨hP, hl⟩ pre hpre
        have hQ₁ := (hstep past s a s₁ r hR hQ ha).mpr hP
        cases pre with
        | nil => exact ⟨s, [], rfl, hQ⟩
        | cons b pre =>
            obtain ⟨rfl, hrest⟩ := List.cons_prefix_cons.mp hpre
            obtain ⟨s', rs, hrun, hQ'⟩ := (ih hR₁ hQ₁).mp hl pre hrest
            exact ⟨s', r :: rs, runAll_cons ha hrun, hQ'⟩
      · intro hall
        -- the first action alone is a beginning of the run
        obtain ⟨s', rs, hrun, hQ₁⟩ := hall [a] (List.prefix_append [a] l)
        obtain ⟨rfl, -⟩ := Prod.mk.inj (Except.ok.inj ((runAll_cons ha rfl).symm.trans hrun))
        refine ⟨(hstep past s a s₁ r hR hQ ha).mp hQ₁, (ih hR₁ hQ₁).mpr fun pre hpre => ?_⟩
        obtain ⟨s', rs, hrun, hQ'⟩ := hall (a :: pre) (List.cons_prefix_cons.mpr ⟨rfl, hpre⟩)
        obtain ⟨s₂, r₂, rs', ha', hl, -⟩ := runAll_cons_ok hrun
        obtain ⟨rfl, -⟩ := Prod.mk.inj (Except.ok.inj (ha.symm.trans ha'))
        exact ⟨s', rs', hl, hQ'⟩

/-- A quantity each action changes by what its answer says. -/
theorem runAll_countP {q : σ → Nat} {p : ρ → Bool}
    (hstep : ∀ s a s' r, act s a = .ok (s', r) → q s' = q s + if p r then 1 else 0)
    (h : runAll act s l = .ok (s', rs)) : q s' = q s + rs.countP p := by
  induction l generalizing s rs with
  | nil =>
      obtain ⟨rfl, rfl⟩ := Prod.mk.inj (Except.ok.inj h)
      rfl
  | cons a l ih =>
      obtain ⟨s₁, r, rs', ha, hl, rfl⟩ := runAll_cons_ok h
      rw [ih hl, hstep _ _ _ _ ha, List.countP_cons]
      omega

theorem runAll_of_runs {l : List (α × ρ)} (h : Runs act s l s') :
    runAll act s (l.map (·.1)) = .ok (s', l.map (·.2)) := by
  induction l generalizing s with
  | nil =>
      obtain rfl : s' = s := h
      rfl
  | cons x l ih =>
      obtain ⟨s₁, ha, hl⟩ := h
      exact runAll_cons ha (ih hl)

theorem runs_append {l₁ l₂ : List (α × ρ)} :
    Runs act s (l₁ ++ l₂) s'' ↔ ∃ s', Runs act s l₁ s' ∧ Runs act s' l₂ s'' := by
  induction l₁ generalizing s with
  | nil => exact ⟨fun h => ⟨s, rfl, h⟩, fun ⟨_, h₁, h₂⟩ => h₁ ▸ h₂⟩
  | cons x l₁ ih =>
      constructor
      · intro ⟨s₁, ha, h⟩
        obtain ⟨s', h₁, h₂⟩ := ih.mp h
        exact ⟨s', ⟨s₁, ha, h₁⟩, h₂⟩
      · intro ⟨s', ⟨s₁, ha, h₁⟩, h₂⟩
        exact ⟨s₁, ha, ih.mpr ⟨s', h₁, h₂⟩⟩

/-- An action that swaps with all of a run moves from its end to its front. -/
theorem Runs.to_front {l : List (α × ρ)} {b : α} (hswap : ∀ x ∈ l, Swaps act x.1 b)
    (hl : Runs act s l s') (hb : act s' b = .ok (s'', r)) : Runs act s ((b, r) :: l) s'' := by
  induction l generalizing s with
  | nil =>
      obtain rfl : s' = s := hl
      exact ⟨s'', hb, rfl⟩
  | cons x l ih =>
      obtain ⟨s₁, ha, hl⟩ := hl
      obtain ⟨s₂, hb₁, hl₂⟩ := ih (fun y hy => hswap y (List.mem_cons_of_mem x hy)) hl
      obtain ⟨s₃, hb₃, ha₃⟩ := hswap x List.mem_cons_self ha hb₁
      exact ⟨s₃, hb₃, s₂, ha₃, hl₂⟩

theorem runAll_single (ha : act s a = .ok (s', r)) : runAll act s [a] = .ok (s', [r]) :=
  runAll_cons ha rfl

end Actions

end Lib
