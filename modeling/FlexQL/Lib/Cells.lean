import Mathlib.Data.List.Basic
import Mathlib.Data.List.Range

/-!
# The first cells of an array

A fixed array of which only the first `n` cells are in use, kept as a
function from the index. `firstN f n` is the list those cells hold. The
imperative idioms on such arrays — open a gap by shifting to the right and
fill it, or move the upper part somewhere else — are stated here as what
they do to the list.
-/

namespace Lib

variable {α β : Type}

/-- The list held by the first `n` cells. -/
def firstN (f : Nat → α) (n : Nat) : List α := (List.range n).map f

/-- The array after `v` was put at `pos`, the `n` cells in use having moved up
by one from there on. -/
def openAt (f : Nat → α) (pos n : Nat) (v : α) : Nat → α :=
  fun i => if i < pos then f i else if i = pos then v
    else if i ≤ n then f (i - 1) else f i

/-- One cell overwritten. -/
def setAt (f : Nat → α) (pos : Nat) (v : α) : Nat → α :=
  fun i => if i = pos then v else f i

@[simp] theorem firstN_length (f : Nat → α) (n : Nat) :
    (firstN f n).length = n := by simp [firstN]

@[simp] theorem firstN_zero (f : Nat → α) : firstN f 0 = [] := rfl

theorem firstN_succ (f : Nat → α) (n : Nat) :
    firstN f (n + 1) = firstN f n ++ [f n] := by
  simp [firstN, List.range_succ]

theorem firstN_cons (f : Nat → α) (n : Nat) :
    firstN f (n + 1) = f 0 :: firstN (fun i => f (i + 1)) n := by
  simp [firstN, List.range_succ_eq_map, Function.comp_def]

@[simp] theorem firstN_getElem (f : Nat → α) {n i : Nat}
    (h : i < (firstN f n).length) : (firstN f n)[i] = f i := by
  simp [firstN]

theorem firstN_getElem? (f : Nat → α) (n i : Nat) :
    (firstN f n)[i]? = if i < n then some (f i) else none := by
  by_cases h : i < n
  · rw [if_pos h, List.getElem?_eq_getElem (by simpa using h)]
    simp
  · rw [if_neg h, List.getElem?_eq_none (by simpa using h)]

@[simp] theorem mem_firstN {f : Nat → α} {n : Nat} {a : α} :
    a ∈ firstN f n ↔ ∃ i, i < n ∧ f i = a := by simp [firstN]

theorem firstN_map (f : Nat → α) (g : α → β) (n : Nat) :
    (firstN f n).map g = firstN (fun i => g (f i)) n := by
  simp [firstN, Function.comp_def]

/-- Arrays that agree on the used cells hold the same list. -/
theorem firstN_congr {f g : Nat → α} {n : Nat} (h : ∀ i, i < n → f i = g i) :
    firstN f n = firstN g n := by
  apply List.ext_getElem (by simp)
  intro i h₁ _
  simpa using h i (by simpa using h₁)

/-- The used cells, cut at `m`. -/
theorem firstN_add (f : Nat → α) (m k : Nat) :
    firstN f (m + k) = firstN f m ++ firstN (fun i => f (m + i)) k := by
  simp [firstN, List.range_add, Function.comp_def]

theorem firstN_cut (f : Nat → α) {m n : Nat} (h : m ≤ n) :
    firstN f n = firstN f m ++ firstN (fun i => f (m + i)) (n - m) := by
  rw [← firstN_add, Nat.add_sub_cancel' h]

/-- Around one used cell. -/
theorem firstN_split (f : Nat → α) {i n : Nat} (h : i < n) :
    firstN f n = firstN f i ++ f i :: firstN (fun j => f (i + 1 + j)) (n - (i + 1)) := by
  rw [firstN_cut f (Nat.succ_le_of_lt h), firstN_succ]
  simp

theorem openAt_lt {f : Nat → α} {pos n i : Nat} {v : α} (h : i < pos) :
    openAt f pos n v i = f i := if_pos h

@[simp] theorem openAt_self (f : Nat → α) (pos n : Nat) (v : α) :
    openAt f pos n v pos = v := by simp [openAt]

theorem openAt_gt {f : Nat → α} {pos n i : Nat} {v : α} (h : pos < i) (hn : i ≤ n) :
    openAt f pos n v i = f (i - 1) := by
  rw [openAt, if_neg (by omega), if_neg (by omega), if_pos hn]

/-- Which cell a cell behind an opened gap is. -/
theorem openAt_cases (f : Nat → α) {n i : Nat} (pos : Nat) (v : α) (hi : i < n + 1) :
    (i < pos ∧ openAt f pos n v i = f i) ∨ (i = pos ∧ openAt f pos n v i = v) ∨
      (pos < i ∧ openAt f pos n v i = f (i - 1)) := by
  rcases Nat.lt_trichotomy i pos with h | h | h
  · exact .inl ⟨h, openAt_lt h⟩
  · exact .inr (.inl ⟨h, by rw [h, openAt_self]⟩)
  · exact .inr (.inr ⟨h, openAt_gt h (by omega)⟩)

theorem forall_openAt {f : Nat → α} {pos n : Nat} {v : α} {Q : α → Prop} (hpos : pos ≤ n)
    (hf : ∀ i, i < n → Q (f i)) (hv : Q v) : ∀ i, i < n + 1 → Q (openAt f pos n v i) := by
  intro i hi
  rcases openAt_cases f pos v hi with ⟨h, e⟩ | ⟨h, e⟩ | ⟨h, e⟩ <;> rw [e]
  · exact hf _ (by omega)
  · exact hv
  · exact hf _ (by omega)

theorem openAt_prod {β : Type} (f : Nat → α) (g : Nat → β) (pos n : Nat) (v : α) (w : β) :
    (fun i => (openAt f pos n v i, openAt g pos n w i))
      = openAt (fun i => (f i, g i)) pos n (v, w) := by
  funext i
  simp only [openAt]
  repeat' split
  all_goals rfl

/-- The gap opened at `pos` and filled: the new cell between the two halves
of the old ones. -/
theorem firstN_openAt (f : Nat → α) {pos n : Nat} (v : α) (h : pos ≤ n) :
    firstN (openAt f pos n v) (n + 1)
      = firstN f pos ++ v :: firstN (fun i => f (pos + i)) (n - pos) := by
  rw [firstN_split _ (Nat.lt_succ_of_le h), openAt_self]
  congr 1
  · exact firstN_congr fun i hi => openAt_lt hi
  · rw [show n + 1 - (pos + 1) = n - pos by omega]
    congr 1
    refine firstN_congr fun i hi => ?_
    rw [openAt_gt (by omega) (by omega)]
    congr 1
    omega

end Lib
