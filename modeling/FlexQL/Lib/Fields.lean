import Mathlib.Data.List.Basic

/-!
# Text in fields

Fields joined by a separator, and the loop that cuts them apart again: a piece
ends at a separator, and behind the last one there is a piece only if there is
something. So a last field that is empty is not found again, and one pads.
-/

namespace Lib

namespace Fields

variable {α : Type} [DecidableEq α] {sep : α} {p s : List α} {ps : List (List α)}

/-- The pieces between the separators. -/
def pieces (sep : α) : List α → List (List α)
  | [] => []
  | a :: s =>
      if a = sep then [] :: pieces sep s
      else match pieces sep s with
        | [] => [[a]]
        | p :: ps => (a :: p) :: ps

/-- Empty pieces behind, up to a number of them. -/
def pad (n : Nat) (ps : List (List α)) : List (List α) := ps ++ List.replicate (n - ps.length) []

omit [DecidableEq α] in
theorem pad_cons (n : Nat) (p : List α) (ps : List (List α)) :
    pad (n + 1) (p :: ps) = p :: pad n ps := by
  rw [pad, List.length_cons, Nat.add_sub_add_right, List.cons_append, pad]

theorem pieces_append (h : sep ∉ p) : pieces sep (p ++ sep :: s) = p :: pieces sep s := by
  induction p with
  | nil => rw [List.nil_append, pieces, if_pos rfl]
  | cons a p ih =>
      rw [List.mem_cons, not_or] at h
      rw [List.cons_append, pieces, if_neg (Ne.symm h.1), ih h.2]

theorem pieces_of_notMem (h : sep ∉ p) (hp : p ≠ []) : pieces sep p = [p] := by
  induction p with
  | nil => exact absurd rfl hp
  | cons a p ih =>
      rw [List.mem_cons, not_or] at h
      rw [pieces, if_neg (Ne.symm h.1)]
      cases p with
      | nil => rfl
      | cons b p => rw [ih h.2 (by simp)]

/-- Fields with a separator behind each. -/
theorem pieces_flatMap (h : ∀ p ∈ ps, sep ∉ p) :
    pieces sep (ps.flatMap fun p => p ++ [sep]) = ps := by
  induction ps with
  | nil => rfl
  | cons p ps ih =>
      rw [List.flatMap_cons, List.append_assoc, List.singleton_append,
        pieces_append (h p List.mem_cons_self), ih fun q hq => h q (List.mem_cons_of_mem _ hq)]

/-- Joined fields come back when one pads to their number. -/
theorem pad_pieces_intercalate (h : ∀ p ∈ ps, sep ∉ p) :
    pad ps.length (pieces sep (List.intercalate [sep] ps)) = ps := by
  induction ps with
  | nil => rfl
  | cons p ps ih =>
      have hp := h p List.mem_cons_self
      cases ps with
      | nil =>
          rw [List.intercalate_singleton]
          by_cases hnil : p = []
          · rw [hnil]
            rfl
          · rw [pieces_of_notMem hp hnil]
            rfl
      | cons q ps =>
          rw [List.intercalate_cons_cons, List.append_assoc, List.singleton_append,
            pieces_append hp]
          rw [List.length_cons, pad_cons, ih fun r hr => h r (List.mem_cons_of_mem _ hr)]

/-- Joined fields come back as they are if none is empty. -/
theorem pieces_intercalate (h : ∀ p ∈ ps, sep ∉ p) (hne : ∀ p ∈ ps, p ≠ []) :
    pieces sep (List.intercalate [sep] ps) = ps := by
  induction ps with
  | nil => rfl
  | cons p ps ih =>
      have hp := h p List.mem_cons_self
      cases ps with
      | nil =>
          rw [List.intercalate_singleton, pieces_of_notMem hp (hne p List.mem_cons_self)]
      | cons q ps =>
          rw [List.intercalate_cons_cons, List.append_assoc, List.singleton_append,
            pieces_append hp, ih (fun r hr => h r (List.mem_cons_of_mem _ hr))
              fun r hr => hne r (List.mem_cons_of_mem _ hr)]

omit [DecidableEq α] in
theorem mem_intercalate {a : α} (h : a ∈ List.intercalate [sep] ps) :
    a = sep ∨ ∃ p ∈ ps, a ∈ p := by
  induction ps with
  | nil => exact absurd h (by simp)
  | cons p ps ih =>
      cases ps with
      | nil =>
          rw [List.intercalate_singleton] at h
          exact .inr ⟨p, List.mem_cons_self, h⟩
      | cons q ps =>
          rw [List.intercalate_cons_cons, List.append_assoc, List.singleton_append,
            List.mem_append, List.mem_cons] at h
          rcases h with h | h | h
          · exact .inr ⟨p, List.mem_cons_self, h⟩
          · exact .inl h
          · rcases ih h with h | ⟨r, hr, h⟩
            · exact .inl h
            · exact .inr ⟨r, List.mem_cons_of_mem _ hr, h⟩

theorem notMem_of_mem_pieces (h : p ∈ pieces sep s) : sep ∉ p := by
  induction s generalizing p with
  | nil => exact absurd h (by simp [pieces])
  | cons a s ih =>
      rw [pieces] at h
      split at h
      · rcases List.mem_cons.mp h with rfl | h
        · simp
        · exact ih h
      · next ha =>
          split at h
          · rw [List.mem_singleton.mp h]
            simpa using Ne.symm ha
          · next q qs hq =>
              rcases List.mem_cons.mp h with rfl | h
              · rw [List.mem_cons, not_or]
                exact ⟨Ne.symm ha, ih (hq ▸ List.mem_cons_self)⟩
              · exact ih (hq ▸ List.mem_cons_of_mem _ h)

theorem mem_of_mem_pieces (h : p ∈ pieces sep s) {a : α} (ha : a ∈ p) : a ∈ s := by
  induction s generalizing p a with
  | nil => exact absurd h (by simp [pieces])
  | cons b s ih =>
      rw [pieces] at h
      split at h
      · rcases List.mem_cons.mp h with rfl | h
        · exact absurd ha (by simp)
        · exact List.mem_cons_of_mem _ (ih h ha)
      · split at h
        · rw [List.mem_singleton.mp h, List.mem_singleton] at ha
          exact ha ▸ List.mem_cons_self
        · next q qs hq =>
            rcases List.mem_cons.mp h with rfl | h
            · rcases List.mem_cons.mp ha with rfl | ha
              · exact List.mem_cons_self
              · exact List.mem_cons_of_mem _ (ih (hq ▸ List.mem_cons_self) ha)
            · exact List.mem_cons_of_mem _ (ih (hq ▸ List.mem_cons_of_mem _ h) ha)

end Fields

end Lib
