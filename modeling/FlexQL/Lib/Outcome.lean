import Mathlib.Data.List.Forall2
import Mathlib.Tactic.Common

/-!
# Calls that may not return

A call into imperative code either returns a value or stops: an exception
leaves it, it performs an operation the language gives no meaning to, or it
never comes back. `Outcome` keeps the three apart from a returned error
value, which is an ordinary result.

The lemmas are the two directions of reading a sequence of calls, whatever
they stop with: a sequence that returned is one whose every call returned,
and a sequence whose calls return can be run forward one at a time.
-/

namespace Lib

/-- Why a call did not return. -/
inductive Fault where
  /-- An exception left the call. -/
  | thrown
  /-- A null or dangling pointer, or an index outside its array. -/
  | undefined
  /-- A loop ran past the bound its data structure puts on it. -/
  | diverged
  deriving DecidableEq, Repr

/-- The result of a call that may not return. -/
abbrev Outcome (α : Type) := Except Fault α

namespace Outcome

variable {ε α β : Type}

@[simp] theorem bind_ok (a : α) (f : α → Except ε β) :
    ((Except.ok a : Except ε α) >>= f) = f a := rfl

@[simp] theorem bind_error (e : ε) (f : α → Except ε β) :
    ((Except.error e : Except ε α) >>= f) = .error e := rfl

@[simp] theorem pure_eq_ok (a : α) : (pure a : Except ε α) = .ok a := rfl

@[simp] theorem map_ok (a : α) (f : α → β) :
    (f <$> (Except.ok a : Except ε α)) = .ok (f a) := rfl

/-- A sequence that returned: its first call returned, and so did the rest. -/
theorem bind_eq_ok {x : Except ε α} {f : α → Except ε β} {b : β} :
    (x >>= f) = .ok b ↔ ∃ a, x = .ok a ∧ f a = .ok b := by
  cases x with
  | error e => simp
  | ok a => simp

theorem map_eq_ok {x : Except ε α} {f : α → β} {b : β} :
    (f <$> x) = .ok b ↔ ∃ a, x = .ok a ∧ f a = b := by
  cases x with
  | error e => simp [Functor.map, Except.map]
  | ok a => simp [Functor.map, Except.map]

/-- Running forward over a call that is known to return. -/
theorem bind_of_ok {x : Except ε α} {a : α} (h : x = .ok a)
    (f : α → Except ε β) : (x >>= f) = f a := by rw [h]; rfl

/-- A list of calls that returned. -/
theorem mapM_eq_ok {f : α → Except ε β} {l : List α} {l' : List β} :
    l.mapM f = .ok l' ↔ List.Forall₂ (fun a b => f a = .ok b) l l' := by
  induction l generalizing l' with
  | nil => simp [eq_comm]
  | cons a l ih =>
      rw [List.mapM_cons, List.forall₂_cons_left_iff, bind_eq_ok]
      refine exists_congr fun b => ?_
      rw [bind_eq_ok]
      constructor
      · rintro ⟨hb, bs, hbs, h⟩
        exact ⟨bs, hb, ih.mp hbs, (Except.ok.inj h).symm⟩
      · rintro ⟨bs, hb, hbs, rfl⟩
        exact ⟨hb, bs, ih.mpr hbs, rfl⟩

theorem exists_of_mem_mapM {f : α → Except ε β} {l : List α} {l' : List β}
    (h : l.mapM f = .ok l') {b : β} (hb : b ∈ l') : ∃ a ∈ l, f a = .ok b := by
  rw [mapM_eq_ok, List.forall₂_iff_get] at h
  obtain ⟨i, hi, rfl⟩ := List.getElem_of_mem hb
  exact ⟨_, List.getElem_mem (h.1 ▸ hi), h.2 i (h.1 ▸ hi) hi⟩

/-- Calls that all return. -/
theorem mapM_returns {f : α → Except ε β} {l : List α} (h : ∀ a ∈ l, ∃ b, f a = .ok b) :
    ∃ l', l.mapM f = .ok l' := by
  induction l with
  | nil => exact ⟨[], rfl⟩
  | cons a l ih =>
      obtain ⟨b, hb⟩ := h a List.mem_cons_self
      obtain ⟨l', hl'⟩ := ih fun x hx => h x (List.mem_cons_of_mem _ hx)
      exact ⟨b :: l', by rw [List.mapM_cons, hb, bind_ok, hl', bind_ok]; rfl⟩

/-- Two calls that stop alike, or return related values. -/
def Matches {ε α β : Type} (R : α → β → Prop) : Except ε α → Except ε β → Prop
  | .ok a, .ok b => R a b
  | .error e, .error e' => e = e'
  | _, _ => False

namespace Matches

variable {α' β' : Type} {R : α → β → Prop} {S : α' → β' → Prop} {x : Except ε α} {y : Except ε β}

/-- Sequences of calls that match step by step. -/
theorem bind {f : α → Except ε α'} {g : β → Except ε β'} (h : Matches R x y)
    (hfg : ∀ a b, R a b → Matches S (f a) (g b)) : Matches S (x >>= f) (y >>= g) := by
  cases x with
  | error e =>
      cases y with
      | error e' => exact h
      | ok b => exact h.elim
  | ok a =>
      cases y with
      | error e' => exact h.elim
      | ok b => exact hfg a b h

theorem imp {R' : α → β → Prop} (h : Matches R x y) (hR : ∀ a b, R a b → R' a b) :
    Matches R' x y := by
  cases x with
  | error e =>
      cases y with
      | error e' => exact h
      | ok b => exact h.elim
  | ok a =>
      cases y with
      | error e' => exact h.elim
      | ok b => exact hR a b h

/-- If one returned, so did the other. -/
theorem ok_left {a : α} (h : Matches R x y) (hx : x = .ok a) : ∃ b, y = .ok b ∧ R a b := by
  subst hx
  cases y with
  | error e => exact h.elim
  | ok b => exact ⟨b, rfl, h⟩

theorem ok_right {b : β} (h : Matches R x y) (hy : y = .ok b) : ∃ a, x = .ok a ∧ R a b := by
  subst hy
  cases x with
  | error e => exact h.elim
  | ok a => exact ⟨a, rfl, h⟩

theorem refl_error (e : ε) : Matches R (.error e) (.error e) := rfl

end Matches

end Outcome

end Lib
