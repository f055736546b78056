import FlexQL.Lib.Bytes

/-!
# Runs of blanks

`squeeze` puts one blank for every run of them. What has no blank in it is not
changed, and what stops at a blank stops at the same place.
-/

namespace Lib.Bytes

/-- One blank for many; `inSpace` says that the blank is there already. -/
def squeeze (inSpace : Bool) : Bytes → Bytes
  | [] => []
  | c :: cs =>
      if isSpace c then
        if inSpace then squeeze true cs else 32 :: squeeze true cs
      else c :: squeeze false cs

theorem squeeze_char {c : UInt8} (h : isSpace c = false) (inSpace : Bool) (cs : Bytes) :
    squeeze inSpace (c :: cs) = c :: squeeze false cs := by
  rw [squeeze, h, if_neg (by decide)]

theorem squeeze_blank {c : UInt8} (h : isSpace c = true) (cs : Bytes) :
    squeeze false (c :: cs) = 32 :: squeeze true cs := by
  rw [squeeze, if_pos h, if_neg (by decide)]

theorem squeeze_more {c : UInt8} (h : isSpace c = true) (cs : Bytes) :
    squeeze true (c :: cs) = squeeze true cs := by
  rw [squeeze, if_pos h, if_pos rfl]

/-- The first character, or a blank for a blank. -/
theorem head?_squeeze (w : Bytes) :
    (squeeze false w).head? = w.head?.map fun c => if isSpace c then 32 else c := by
  cases w with
  | nil => rfl
  | cons c cs =>
      cases hc : isSpace c with
      | true => rw [squeeze_blank hc]; simp [hc]
      | false => rw [squeeze_char hc]; simp [hc]

theorem dropWhile_squeeze (inSpace : Bool) (w : Bytes) :
    (squeeze inSpace w).dropWhile isSpace = squeeze false (w.dropWhile isSpace) := by
  induction w generalizing inSpace with
  | nil => rfl
  | cons c cs ih =>
      cases hc : isSpace c with
      | true =>
          rw [List.dropWhile_cons_of_pos hc]
          cases inSpace with
          | true => rw [squeeze_more hc, ih]
          | false => rw [squeeze_blank hc, List.dropWhile_cons_of_pos rfl, ih]
      | false =>
          rw [List.dropWhile_cons_of_neg (by simp [hc]), squeeze_char hc,
            List.dropWhile_cons_of_neg (by simp [hc]), squeeze_char hc]

section Runs

variable {p : UInt8 → Bool} (hp : ∀ c, isSpace c = true → p c = false)

include hp

/-- A run that holds no blank is left as it is. -/
theorem takeWhile_squeeze (w : Bytes) : (squeeze false w).takeWhile p = w.takeWhile p := by
  induction w with
  | nil => rfl
  | cons c cs ih =>
      cases hc : isSpace c with
      | true =>
          rw [squeeze_blank hc, List.takeWhile_cons_of_neg (by rw [hp 32 rfl]; decide),
            List.takeWhile_cons_of_neg (by rw [hp c hc]; decide)]
      | false => rw [squeeze_char hc, List.takeWhile_cons, List.takeWhile_cons, ih]

theorem dropWhile_run_squeeze (w : Bytes) :
    (squeeze false w).dropWhile p = squeeze false (w.dropWhile p) := by
  induction w with
  | nil => rfl
  | cons c cs ih =>
      cases hc : isSpace c with
      | true =>
          rw [List.dropWhile_cons_of_neg (by rw [hp c hc]; decide), squeeze_blank hc,
            List.dropWhile_cons_of_neg (by rw [hp 32 rfl]; decide)]
      | false =>
          rw [squeeze_char hc, List.dropWhile_cons, List.dropWhile_cons, ih]
          split
          · rfl
          · rw [squeeze_char hc]

end Runs

end Lib.Bytes
