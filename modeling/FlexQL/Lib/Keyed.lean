import FlexQL.Lib.Actions
import Mathlib.Data.Finmap

/-!
# Actions on one entry of a finite map

An action is at a key when it reads and writes nothing but the entry at that
key. Actions at different keys swap.
-/

namespace Lib

namespace Keyed

variable {κ β α ρ ε : Type} [DecidableEq κ]

/-- A new entry at a key, or none. -/
def put (k : κ) (change : Option β) (m : Finmap fun _ : κ => β) : Finmap fun _ : κ => β :=
  match change with
  | none => m
  | some b => m.insert k b

/-- What the action does depends on the entry at `k`, and it changes no other. -/
def At (act : (Finmap fun _ : κ => β) → α → Except ε ((Finmap fun _ : κ => β) × ρ)) (k : κ)
    (a : α) : Prop :=
  ∀ ⦃m m' : Finmap fun _ : κ => β⦄ ⦃r : ρ⦄, act m a = .ok (m', r) → ∃ change, m' = put k change m ∧
    ∀ n : Finmap fun _ : κ => β, n.lookup k = m.lookup k → act n a = .ok (put k change n, r)

section

variable {k k' : κ} {m : Finmap fun _ : κ => β}

theorem lookup_put_of_ne (h : k' ≠ k) (change : Option β) :
    (put k change m).lookup k' = m.lookup k' := by
  cases change with
  | none => rfl
  | some b => exact Finmap.lookup_insert_of_ne m h

theorem put_comm (h : k ≠ k') (change change' : Option β) :
    put k' change' (put k change m) = put k change (put k' change' m) := by
  cases change with
  | none => rfl
  | some b =>
      cases change' with
      | none => rfl
      | some b' => exact Finmap.insert_insert_of_ne m h

variable {act : (Finmap fun _ : κ => β) → α → Except ε ((Finmap fun _ : κ => β) × ρ)} {a b : α}

theorem At.congr {α' : Type}
    {act' : (Finmap fun _ : κ => β) → α' → Except ε ((Finmap fun _ : κ => β) × ρ)} {a' : α'}
    (h : At act' k a') (heq : ∀ m, act m a = act' m a') : At act k a := by
  intro m m' r hm
  obtain ⟨change, hm', hact⟩ := h ((heq m).symm.trans hm)
  exact ⟨change, hm', fun n hn => (heq n).trans (hact n hn)⟩

/-- An action that changes nothing is at every key. -/
theorem at_of_idle {r : ρ} (h : ∀ m, act m a = .ok (m, r)) : At act k a := by
  intro m m' r' hm
  obtain ⟨rfl, rfl⟩ := Prod.mk.inj (Except.ok.inj ((h m).symm.trans hm))
  exact ⟨none, rfl, fun n _ => h n⟩

theorem At.swaps (ha : At act k a) (hb : At act k' b) (h : k ≠ k') : Actions.Swaps act a b := by
  intro m m₁ m₂ ra rb hma hmb
  obtain ⟨change, rfl, hact⟩ := ha hma
  obtain ⟨change', rfl, hact'⟩ := hb hmb
  refine ⟨put k' change' m, hact' m (lookup_put_of_ne h.symm change).symm, ?_⟩
  rw [put_comm h]
  exact hact _ (lookup_put_of_ne h change')

end

end Keyed

end Lib
