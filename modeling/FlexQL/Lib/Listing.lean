import Mathlib.Data.Finmap
import Mathlib.Algebra.BigOperators.Group.Finset.Basic

/-!
# Maps of lists

How many elements the lists of a finite map have together.
-/

namespace Lib.Listing

variable {κ α : Type} [DecidableEq κ]

/-- The list under a key; under no key there is nothing. -/
def under (m : Finmap fun _ : κ => List α) (k : κ) : List α := (m.lookup k).getD []

def total (m : Finmap fun _ : κ => List α) : Nat := m.keys.sum fun k => (under m k).length

variable (m : Finmap fun _ : κ => List α) (k : κ) (l : List α)

@[simp] theorem total_empty : total (∅ : Finmap fun _ : κ => List α) = 0 := rfl

theorem total_erase : total (m.erase k) + (under m k).length = total m := by
  have hrest : ∀ k' ∈ m.keys.erase k, (under (m.erase k) k').length = (under m k').length := by
    intro k' hk'
    rw [under, under, Finmap.lookup_erase_ne (Finset.ne_of_mem_erase hk')]
  rw [total, Finmap.keys_erase, Finset.sum_congr rfl hrest, total]
  by_cases hk : k ∈ m.keys
  · exact Finset.sum_erase_add _ _ hk
  · have hnone : under m k = [] := by
      rw [under, Finmap.lookup_eq_none.mpr fun h => hk (Finmap.mem_keys.mpr h)]
      rfl
    rw [Finset.erase_eq_of_notMem hk, hnone]
    rfl

theorem erase_insert : (m.insert k l).erase k = m.erase k := by
  refine Finmap.ext_lookup fun k' => ?_
  by_cases hk : k' = k
  · subst hk
    rw [Finmap.lookup_erase, Finmap.lookup_erase]
  · rw [Finmap.lookup_erase_ne hk, Finmap.lookup_erase_ne hk, Finmap.lookup_insert_of_ne _ hk]

theorem total_insert : total (m.insert k l) + (under m k).length = total m + l.length := by
  have hnew := total_erase (m.insert k l) k
  have hold := total_erase m k
  rw [erase_insert, under, Finmap.lookup_insert, Option.getD_some] at hnew
  omega

end Lib.Listing
