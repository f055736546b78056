import Mathlib.Data.List.Basic
import Mathlib.Data.List.Pairwise

/-!
# Sorted association lists over a comparison that orders some keys

Two Boolean comparisons, a less-than and a tie, are only expected to make
sense on the keys satisfying a predicate: on those they are a strict weak
order and its tie relation. Everything below is relative to that predicate.

An association list sorted by such a comparison is a finite map. `upsert` is
its one update: a tied key keeps its place and its spelling and takes the new
value, any other key goes where the order puts it.
-/

namespace Lib

/-- On the keys satisfying `P`, `lt` is a strict weak order and `eq` is
being tied in it. -/
structure WeakOrderOn {K : Type} (P : K → Prop) (lt eq : K → K → Bool) : Prop where
  asymm : ∀ {a b}, P a → P b → lt a b = true → lt b a = false
  /-- Whatever lies between two ordered keys is ordered against one of them. -/
  between : ∀ {a b c}, P a → P b → P c → lt a b = true →
    lt a c = true ∨ lt c b = true
  eq_iff : ∀ {a b}, P a → P b → (eq a b = true ↔ lt a b = false ∧ lt b a = false)

namespace WeakOrderOn

variable {K : Type} {P : K → Prop} {lt eq : K → K → Bool}

/-- A linear order, compared by deciding it. -/
theorem ofLinear {K : Type} [LT K] [LE K] [Std.IsLinearOrder K]
    [Std.LawfulOrderLT K] [DecidableLT K] [DecidableEq K] :
    WeakOrderOn (fun _ : K => True) (fun a b => decide (a < b))
      (fun a b => decide (a = b)) where
  asymm := by
    intro a b _ _ h
    simp only [decide_eq_true_eq, decide_eq_false_iff_not, Std.not_lt] at h ⊢
    exact Std.le_of_lt h
  between := by
    intro a b c _ _ _ h
    simp only [decide_eq_true_eq] at h ⊢
    by_cases hac : a < c
    · exact .inl hac
    · exact .inr (Std.lt_of_le_of_lt (Std.not_lt.mp hac) h)
  eq_iff := by
    intro a b _ _
    simp only [decide_eq_true_eq, decide_eq_false_iff_not, Std.not_lt]
    constructor
    · rintro rfl
      exact ⟨Std.le_refl _, Std.le_refl _⟩
    · rintro ⟨h₁, h₂⟩
      exact Std.le_antisymm h₂ h₁

/-- Keys compared through an image that is ordered. -/
theorem comap {J : Type} {Q : J → Prop} {lt' eq' : J → J → Bool} (f : J → K)
    (o : WeakOrderOn P lt eq) (hP : ∀ {a}, Q a → P (f a))
    (hlt : ∀ {a b}, Q a → Q b → lt' a b = lt (f a) (f b))
    (heq : ∀ {a b}, Q a → Q b → eq' a b = eq (f a) (f b)) :
    WeakOrderOn Q lt' eq' where
  asymm := by
    intro a b ha hb h
    rw [hlt hb ha]
    exact o.asymm (hP ha) (hP hb) (by rw [← hlt ha hb]; exact h)
  between := by
    intro a b c ha hb hc h
    rw [hlt ha hc, hlt hc hb]
    exact o.between (hP ha) (hP hb) (hP hc) (by rw [← hlt ha hb]; exact h)
  eq_iff := by
    intro a b ha hb
    rw [heq ha hb, hlt ha hb, hlt hb ha]
    exact o.eq_iff (hP ha) (hP hb)

theorem irrefl (o : WeakOrderOn P lt eq) {a : K} (ha : P a) : lt a a = false := by
  cases h : lt a a with
  | false => rfl
  | true => exact absurd (o.asymm ha ha h) (by simp [h])

theorem trans (o : WeakOrderOn P lt eq) {a b c : K} (ha : P a) (hb : P b)
    (hc : P c) (hab : lt a b = true) (hbc : lt b c = true) : lt a c = true := by
  rcases o.between ha hb hc hab with h | h
  · exact h
  · exact absurd (o.asymm hb hc hbc) (by simp [h])

theorem eq_refl (o : WeakOrderOn P lt eq) {a : K} (ha : P a) : eq a a = true :=
  (o.eq_iff ha ha).2 ⟨o.irrefl ha, o.irrefl ha⟩

theorem eq_symm (o : WeakOrderOn P lt eq) {a b : K} (ha : P a) (hb : P b)
    (h : eq a b = true) : eq b a = true :=
  (o.eq_iff hb ha).2 ((o.eq_iff ha hb).1 h).symm

theorem ne_of_lt (o : WeakOrderOn P lt eq) {a b : K} (ha : P a) (hb : P b)
    (h : lt a b = true) : eq a b = false := by
  cases he : eq a b with
  | false => rfl
  | true => exact absurd ((o.eq_iff ha hb).1 he).1 (by simp [h])

theorem ne_of_gt (o : WeakOrderOn P lt eq) {a b : K} (ha : P a) (hb : P b)
    (h : lt b a = true) : eq a b = false := by
  cases he : eq a b with
  | false => rfl
  | true => exact absurd ((o.eq_iff ha hb).1 he).2 (by simp [h])

theorem gt_of_not (o : WeakOrderOn P lt eq) {a b : K} (ha : P a) (hb : P b)
    (hlt : ¬ lt a b = true) (heq : ¬ eq a b = true) : lt b a = true := by
  cases h : lt b a with
  | true => rfl
  | false => exact absurd ((o.eq_iff ha hb).2 ⟨by simpa using hlt, h⟩) heq

theorem lt_of_le_of_lt (o : WeakOrderOn P lt eq) {a b c : K} (ha : P a)
    (hb : P b) (hc : P c) (hab : lt b a = false) (hbc : lt b c = true) :
    lt a c = true := by
  rcases o.between hb hc ha hbc with h | h
  · exact absurd hab (by simp [h])
  · exact h

theorem lt_of_lt_of_le (o : WeakOrderOn P lt eq) {a b c : K} (ha : P a)
    (hb : P b) (hc : P c) (hab : lt a b = true) (hbc : lt c b = false) :
    lt a c = true := by
  rcases o.between ha hb hc hab with h | h
  · exact h
  · exact absurd hbc (by simp [h])

/-- A key tied with `a` compares with every key as `a` does. -/
theorem lt_congr_left (o : WeakOrderOn P lt eq) {a b c : K} (ha : P a)
    (hb : P b) (hc : P c) (h : eq a b = true) : lt a c = lt b c := by
  obtain ⟨hab, hba⟩ := (o.eq_iff ha hb).1 h
  cases hac : lt a c with
  | true => exact (o.lt_of_le_of_lt hb ha hc hab hac).symm
  | false =>
      cases hbc : lt b c with
      | false => rfl
      | true => exact absurd (o.lt_of_le_of_lt ha hb hc hba hbc) (by simp [hac])

theorem lt_congr_right (o : WeakOrderOn P lt eq) {a b c : K} (ha : P a)
    (hb : P b) (hc : P c) (h : eq a b = true) : lt c a = lt c b := by
  obtain ⟨hab, hba⟩ := (o.eq_iff ha hb).1 h
  cases hac : lt c a with
  | true => exact (o.lt_of_lt_of_le hc ha hb hac hba).symm
  | false =>
      cases hbc : lt c b with
      | false => rfl
      | true => exact absurd (o.lt_of_lt_of_le hc hb ha hbc hab) (by simp [hac])

theorem eq_congr_left (o : WeakOrderOn P lt eq) {a b c : K} (ha : P a)
    (hb : P b) (hc : P c) (h : eq a b = true) : eq a c = eq b c := by
  rw [Bool.eq_iff_iff, o.eq_iff ha hc, o.eq_iff hb hc,
    o.lt_congr_left ha hb hc h, o.lt_congr_right ha hb hc h]

end WeakOrderOn

section Assoc

variable {K V : Type} (lt eq : K → K → Bool)

/-- Strictly ascending keys. -/
def Ascending (l : List (K × V)) : Prop :=
  l.Pairwise fun a b => lt a.1 b.1 = true

/-- The value stored under a key tied with `k`. -/
def lookup (l : List (K × V)) (k : K) : Option V :=
  (l.find? fun e => eq e.1 k).map (·.2)

/-- Store `v` under `k`. -/
def upsert (k : K) (v : V) : List (K × V) → List (K × V)
  | [] => [(k, v)]
  | e :: l =>
      if lt e.1 k then e :: upsert k v l
      else if eq e.1 k then (e.1, v) :: l
      else (k, v) :: e :: l

variable {lt eq}
variable {P : K → Prop}

theorem upsert_typed {k : K} {v : V} {l : List (K × V)} (hk : P k)
    (hl : ∀ e ∈ l, P e.1) : ∀ e ∈ upsert lt eq k v l, P e.1 := by
  induction l with
  | nil => simpa [upsert] using hk
  | cons a l ih =>
      have ha := hl a (by simp)
      have ih' := ih fun e he => hl e (by simp [he])
      intro e he
      rw [upsert] at he
      split at he
      · rcases List.mem_cons.mp he with rfl | he
        · exact ha
        · exact ih' e he
      · split at he
        · rcases List.mem_cons.mp he with rfl | he
          · exact ha
          · exact hl e (by simp [he])
        · rcases List.mem_cons.mp he with rfl | he
          · exact hk
          · exact hl e he

/-- Entries below the key are passed over. -/
theorem upsert_append_left {k : K} {v : V} {a b : List (K × V)}
    (ha : ∀ e ∈ a, lt e.1 k = true) :
    upsert lt eq k v (a ++ b) = a ++ upsert lt eq k v b := by
  induction a with
  | nil => rfl
  | cons e a ih =>
      rw [List.cons_append, upsert, if_pos (ha e (by simp)),
        ih fun x hx => ha x (by simp [hx])]
      rfl

/-- Entries above the key are not reached. -/
theorem upsert_append_right (o : WeakOrderOn P lt eq) {k : K} {v : V}
    {a b : List (K × V)} (hk : P k) (hP : ∀ e ∈ b, P e.1)
    (hb : ∀ e ∈ b, lt k e.1 = true) :
    upsert lt eq k v (a ++ b) = upsert lt eq k v a ++ b := by
  induction a with
  | nil =>
      cases b with
      | nil => rfl
      | cons e b =>
          have hke := hb e (by simp)
          have hPe := hP e (by simp)
          rw [List.nil_append, upsert.eq_def lt eq k v (e :: b)]
          simp only [o.asymm hk hPe hke, o.ne_of_gt hPe hk hke]
          rfl
  | cons e a ih =>
      simp only [List.cons_append, upsert]
      split
      · rw [ih]; rfl
      · split
        · rfl
        · rfl

/-- At the insertion point: the head of the rest is not below the key. -/
theorem upsert_of_tie {k : K} {v : V} {e : K × V} {b : List (K × V)}
    (hlt : lt e.1 k = false) (heq : eq e.1 k = true) :
    upsert lt eq k v (e :: b) = (e.1, v) :: b := by
  rw [upsert, if_neg (by simp [hlt]), if_pos heq]

theorem upsert_of_gt (o : WeakOrderOn P lt eq) {k : K} {v : V}
    {b : List (K × V)} (hk : P k) (hP : ∀ e ∈ b, P e.1)
    (hb : ∀ e ∈ b, lt k e.1 = true) :
    upsert lt eq k v b = (k, v) :: b := by
  rw [← List.nil_append b, upsert_append_right o hk hP hb]
  rfl

theorem lookup_cons (e : K × V) (l : List (K × V)) (k : K) :
    lookup eq (e :: l) k = if eq e.1 k then some e.2 else lookup eq l k := by
  rw [lookup, List.find?_cons]
  cases eq e.1 k <;> simp [lookup]

theorem lookup_eq_none {l : List (K × V)} {k : K}
    (h : ∀ e ∈ l, eq e.1 k = false) : lookup eq l k = none := by
  rw [lookup, List.find?_eq_none.2 (by simpa using h)]
  rfl

theorem lookup_append_left {a b : List (K × V)} {k : K}
    (h : ∀ e ∈ a, eq e.1 k = false) : lookup eq (a ++ b) k = lookup eq b k := by
  induction a with
  | nil => rfl
  | cons e a ih =>
      rw [List.cons_append, lookup_cons, if_neg (by simp [h e (by simp)]),
        ih fun x hx => h x (by simp [hx])]

theorem lookup_append_right {a b : List (K × V)} {k : K}
    (h : ∀ e ∈ b, eq e.1 k = false) : lookup eq (a ++ b) k = lookup eq a k := by
  induction a with
  | nil => rw [List.nil_append, lookup_eq_none h]; rfl
  | cons e a ih => rw [List.cons_append, lookup_cons, lookup_cons, ih]

theorem mem_of_lookup {l : List (K × V)} {k : K} {v : V} (h : lookup eq l k = some v) :
    ∃ k', (k', v) ∈ l ∧ eq k' k = true := by
  obtain ⟨e, he, rfl⟩ := Option.map_eq_some_iff.mp h
  have htie := List.find?_some he
  exact ⟨e.1, List.mem_of_find?_eq_some he, htie⟩

theorem lookup_of_mem (o : WeakOrderOn P lt eq) {l : List (K × V)} (hP : ∀ e ∈ l, P e.1)
    (hl : Ascending lt l) {e : K × V} (he : e ∈ l) : lookup eq l e.1 = some e.2 := by
  induction l with
  | nil => exact absurd he (List.not_mem_nil)
  | cons a l ih =>
      obtain ⟨ha, hl'⟩ := List.pairwise_cons.mp hl
      have hPa := hP a (by simp)
      rw [lookup_cons]
      rcases List.mem_cons.mp he with rfl | he
      · rw [if_pos (o.eq_refl hPa)]
      · rw [if_neg (by simp [o.ne_of_lt hPa (hP e (by simp [he])) (ha e he)]),
          ih (fun x hx => hP x (by simp [hx])) hl' he]

/-- What a lookup answers after a store: the new value for a tied key, and
what it answered before for every other. -/
theorem lookup_upsert (o : WeakOrderOn P lt eq) {k k' : K} {v : V}
    {l : List (K × V)} (hk : P k) (hk' : P k') (hP : ∀ e ∈ l, P e.1) :
    lookup eq (upsert lt eq k v l) k'
      = if eq k k' then some v else lookup eq l k' := by
  induction l with
  | nil => rw [upsert, lookup_cons]
  | cons e l ih =>
      have he := hP e (by simp)
      have ih' := ih fun x hx => hP x (by simp [hx])
      rw [upsert]
      split
      · next hlt =>
          rw [lookup_cons, lookup_cons, ih']
          split
          · next hek' =>
              -- a key tied with both `e` and `k` would tie `e` with `k`
              have hne := o.ne_of_lt he hk hlt
              rw [o.eq_congr_left he hk' hk hek'] at hne
              rw [if_neg]
              intro hkk'
              rw [o.eq_symm hk hk' hkk'] at hne
              exact absurd hne (by simp)
          · rfl
      · split
        · next heq =>
            rw [lookup_cons, lookup_cons, o.eq_congr_left he hk hk' heq]
            split <;> rfl
        · rw [lookup_cons]

theorem mem_upsert_keys {k : K} {v : V} {l : List (K × V)} {e : K × V}
    (he : e ∈ upsert lt eq k v l) : e.1 = k ∨ ∃ x ∈ l, x.1 = e.1 := by
  induction l with
  | nil => left; simp [upsert] at he; rw [he]
  | cons a l ih =>
      rw [upsert] at he
      split at he
      · rcases List.mem_cons.mp he with rfl | he
        · exact .inr ⟨e, by simp, rfl⟩
        · rcases ih he with h | ⟨x, hx, hxe⟩
          · exact .inl h
          · exact .inr ⟨x, by simp [hx], hxe⟩
      · split at he
        · rcases List.mem_cons.mp he with rfl | he
          · exact .inr ⟨a, by simp, rfl⟩
          · exact .inr ⟨e, by simp [he], rfl⟩
        · rcases List.mem_cons.mp he with rfl | he
          · exact .inl rfl
          · exact .inr ⟨e, he, rfl⟩

/-- A store adds one entry unless a tied key is there. -/
theorem length_upsert (o : WeakOrderOn P lt eq) {k : K} {v : V}
    {l : List (K × V)} (hk : P k) (hP : ∀ e ∈ l, P e.1) (h : Ascending lt l) :
    (upsert lt eq k v l).length
      = if (lookup eq l k).isSome then l.length else l.length + 1 := by
  induction l with
  | nil => simp [upsert, lookup]
  | cons a l ih =>
      obtain ⟨hal, hl⟩ := List.pairwise_cons.mp h
      have ha := hP a (by simp)
      have hPl : ∀ e ∈ l, P e.1 := fun e he => hP e (by simp [he])
      rw [upsert, lookup_cons]
      split
      · next hlt =>
          rw [List.length_cons, ih hPl hl]
          simp only [o.ne_of_lt ha hk hlt, Bool.false_eq_true, if_false]
          split <;> rfl
      · next hlt =>
          split
          · simp
          · next heq =>
              have hka := o.gt_of_not ha hk hlt heq
              rw [lookup_eq_none fun e he => o.ne_of_gt (hPl e he) hk
                (o.trans hk ha (hPl e he) hka (hal e he))]
              simp

end Assoc

end Lib
