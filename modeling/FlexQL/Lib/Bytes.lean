import Mathlib.Algebra.Ring.Int.Defs
import Mathlib.Algebra.Ring.Nat
import Mathlib.Data.List.Basic
import Mathlib.Data.List.TakeDrop
import Mathlib.Data.List.TakeWhile
import Mathlib.Data.Nat.Notation

/-!
# Byte strings

Strings of bytes with the character classes of the C locale, and unsigned
integers in little-endian and big-endian order.

A byte past 127 belongs to no character class and has no upper case: that is
what the C locale says of the values of an `unsigned char`, and what its
tables answer for a negative `char`.
-/

namespace Lib

abbrev Bytes := List UInt8

namespace Bytes

/-- An ASCII literal. -/
def lit (s : String) : Bytes := s.toList.map fun c => UInt8.ofNat c.toNat

/-- The decimal digits of a number, as `std::to_string` prints them. -/
def ofNat (n : Nat) : Bytes := lit (toString n)

/-- The same with a sign. -/
def ofInt (n : Int) : Bytes := if n < 0 then 45 :: ofNat n.natAbs else ofNat n.natAbs

def isSpace (c : UInt8) : Bool := c = 32 || (9 ≤ c && c ≤ 13)

def isDigit (c : UInt8) : Bool := 48 ≤ c && c ≤ 57

def isUpper (c : UInt8) : Bool := 65 ≤ c && c ≤ 90

def isLower (c : UInt8) : Bool := 97 ≤ c && c ≤ 122

def isAlpha (c : UInt8) : Bool := isUpper c || isLower c

def isAlnum (c : UInt8) : Bool := isAlpha c || isDigit c

def upperChar (c : UInt8) : UInt8 := if isLower c then c - 32 else c

def toUpper (s : Bytes) : Bytes := s.map upperChar

/-- The number a string of digits denotes. -/
def digitsNat (w : Bytes) : Nat := w.foldl (fun n c => 10 * n + (c.toNat - 48)) 0

/-- The integer a string starts with, after blanks and with an optional sign,
as `strtol` reads it in base ten; `none` if there are no digits. -/
def leadingInt (w : Bytes) : Option Int :=
  let w := w.dropWhile isSpace
  let (negative, w) := match w with
    | c :: cs => if c = 45 then (true, cs) else if c = 43 then (false, cs) else (false, w)
    | [] => (false, w)
  let digits := w.takeWhile isDigit
  if digits.isEmpty then none
  else some (if negative then -(digitsNat digits : Int) else digitsNat digits)

/-- A fact about bytes is 256 facts. -/
theorem forall_byte {p : UInt8 → Prop} (h : ∀ n : Fin 256, p (UInt8.ofNat n)) :
    ∀ c, p c := by
  intro c
  have hc := h ⟨c.toNat, c.toNat_lt⟩
  rwa [UInt8.ofNat_toNat] at hc

/-- What upper case does to a character, and what a digit is not. -/
theorem char_kinds : ∀ c, upperChar (upperChar c) = upperChar c ∧
    isAlpha (upperChar c) = isAlpha c ∧ isDigit (upperChar c) = isDigit c ∧
    isSpace (upperChar c) = isSpace c ∧ (isAlpha c = false → upperChar c = c) ∧
    (isDigit c = true → isAlpha c = false ∧ isSpace c = false ∧ c ≠ 45 ∧ c ≠ 43) :=
  forall_byte (by decide +kernel)

theorem upperChar_idem (c : UInt8) : upperChar (upperChar c) = upperChar c := (char_kinds c).1

@[simp] theorem toUpper_idem (s : Bytes) : toUpper (toUpper s) = toUpper s := by
  simp [toUpper, upperChar_idem]

@[simp] theorem toUpper_length (s : Bytes) : (toUpper s).length = s.length := by
  simp [toUpper]

/-! Upper case keeps the kind of every character, and every character that is
not a letter. -/

@[simp] theorem isAlpha_upperChar (c : UInt8) : isAlpha (upperChar c) = isAlpha c :=
  (char_kinds c).2.1

@[simp] theorem isDigit_upperChar (c : UInt8) : isDigit (upperChar c) = isDigit c :=
  (char_kinds c).2.2.1

@[simp] theorem isSpace_upperChar (c : UInt8) : isSpace (upperChar c) = isSpace c :=
  (char_kinds c).2.2.2.1

theorem upperChar_of_not_isAlpha (c : UInt8) (h : isAlpha c = false) : upperChar c = c :=
  (char_kinds c).2.2.2.2.1 h

theorem not_isAlpha_of_isDigit (c : UInt8) (h : isDigit c = true) : isAlpha c = false :=
  ((char_kinds c).2.2.2.2.2 h).1

theorem upperChar_eq_iff {c k : UInt8} (hk : isAlpha k = false) : upperChar c = k ↔ c = k := by
  constructor
  · intro h
    rw [← h, isAlpha_upperChar] at hk
    rw [← h, upperChar_of_not_isAlpha c hk]
  · rintro rfl
    exact upperChar_of_not_isAlpha c hk

@[simp] theorem toUpper_nil : toUpper [] = [] := rfl

@[simp] theorem toUpper_cons (c : UInt8) (w : Bytes) :
    toUpper (c :: w) = upperChar c :: toUpper w := rfl

theorem toUpper_eq_self {w : Bytes} (h : ∀ c ∈ w, isAlpha c = false) : toUpper w = w :=
  (List.map_congr_left fun c hc => upperChar_of_not_isAlpha c (h c hc)).trans (List.map_id w)

theorem takeWhile_toUpper {p : UInt8 → Bool} (hp : ∀ c, p (upperChar c) = p c) (w : Bytes) :
    (toUpper w).takeWhile p = toUpper (w.takeWhile p) := by
  rw [toUpper, List.takeWhile_map, funext (f := p ∘ upperChar) hp]
  rfl

theorem dropWhile_toUpper {p : UInt8 → Bool} (hp : ∀ c, p (upperChar c) = p c) (w : Bytes) :
    (toUpper w).dropWhile p = toUpper (w.dropWhile p) := by
  rw [toUpper, List.dropWhile_map, funext (f := p ∘ upperChar) hp]
  rfl

theorem takeWhile_isDigit_toUpper (w : Bytes) :
    (toUpper w).takeWhile isDigit = w.takeWhile isDigit := by
  rw [takeWhile_toUpper isDigit_upperChar]
  exact toUpper_eq_self fun c hc => not_isAlpha_of_isDigit c (List.mem_takeWhile_imp hc)

theorem leadingInt_toUpper (w : Bytes) : leadingInt (toUpper w) = leadingInt w := by
  rw [leadingInt, leadingInt, dropWhile_toUpper isSpace_upperChar]
  cases w.dropWhile isSpace with
  | nil => rfl
  | cons c cs =>
      simp only [toUpper_cons, upperChar_eq_iff (show isAlpha 45 = false from rfl),
        upperChar_eq_iff (show isAlpha 43 = false from rfl)]
      split
      · simp only [takeWhile_isDigit_toUpper]
      · split
        · simp only [takeWhile_isDigit_toUpper]
        · simp only [← toUpper_cons, takeWhile_isDigit_toUpper]

/-! The digits of a number denote it. -/

theorem ofNat_eq (n : Nat) :
    ofNat n = (Nat.toDigits 10 n).map fun c => UInt8.ofNat c.toNat := by
  show List.map _ (Nat.repr n).toList = _
  rw [Nat.repr, String.toList_ofList]

theorem ofNat_ne_nil (n : Nat) : ofNat n ≠ [] := by
  rw [ofNat_eq, ne_eq, List.map_eq_nil_iff]
  exact Nat.toDigits_ne_nil

theorem toNat_digitChar {c : Char} (h : c.isDigit = true) :
    48 ≤ c.toNat ∧ c.toNat ≤ 57 ∧ (UInt8.ofNat c.toNat).toNat = c.toNat := by
  have hc : 48 ≤ c.toNat ∧ c.toNat ≤ 57 := Char.isDigit_iff_toNat.mp h
  refine ⟨hc.1, hc.2, ?_⟩
  rw [UInt8.toNat_ofNat', Nat.mod_eq_of_lt (by omega)]

theorem isDigit_of_mem_ofNat {n : Nat} {c : UInt8} (h : c ∈ ofNat n) : isDigit c = true := by
  rw [ofNat_eq] at h
  obtain ⟨d, hd, rfl⟩ := List.mem_map.mp h
  have hrange := toNat_digitChar (Nat.isDigit_of_mem_toDigits (by decide) (by decide) hd)
  simp only [isDigit, Bool.and_eq_true, decide_eq_true_eq, UInt8.le_iff_toNat_le, hrange.2.2]
  exact ⟨hrange.1, hrange.2.1⟩

theorem digitsNat_ofNat (n : Nat) : digitsNat (ofNat n) = n := by
  have hfold : ∀ (l : List Char) (m : Nat), (∀ c ∈ l, c.isDigit = true) →
      (l.map fun c => UInt8.ofNat c.toNat).foldl (fun n c => 10 * n + (c.toNat - 48)) m =
        Nat.ofDigitChars 10 l m := by
    intro l
    induction l with
    | nil => intro m _; rfl
    | cons c l ih =>
        intro m h
        rw [List.map_cons, List.foldl_cons, ih _ fun d hd => h d (List.mem_cons_of_mem c hd),
          (toNat_digitChar (h c (by simp))).2.2]
        rfl
  rw [digitsNat, ofNat_eq, hfold _ _ fun c hc =>
    Nat.isDigit_of_mem_toDigits (by decide) (by decide) hc]
  exact Nat.ofDigitChars_toDigits (by decide) (by decide)

theorem not_isSpace_of_isDigit (c : UInt8) (h : isDigit c = true) :
    isSpace c = false ∧ c ≠ 45 ∧ c ≠ 43 :=
  ((char_kinds c).2.2.2.2.2 h).2

theorem leadingInt_ofNat (n : Nat) : leadingInt (ofNat n) = some (n : Int) := by
  have hdigits : (ofNat n).takeWhile isDigit = ofNat n :=
    List.takeWhile_eq_self_iff.mpr fun _ h => isDigit_of_mem_ofNat h
  have hval := digitsNat_ofNat n
  cases hw : ofNat n with
  | nil => exact absurd hw (ofNat_ne_nil n)
  | cons c cs =>
      obtain ⟨hspace, hminus, hplus⟩ :=
        not_isSpace_of_isDigit c (isDigit_of_mem_ofNat (by rw [hw]; exact List.mem_cons_self))
      rw [hw] at hdigits hval
      have hdrop : (c :: cs).dropWhile isSpace = c :: cs :=
        List.dropWhile_cons_of_neg (by rw [hspace]; decide)
      simp only [leadingInt, hdrop, if_neg hminus, if_neg hplus, hdigits, hval]
      rfl

/-- The low `w` bytes of `n`, least significant first. -/
def le (n : Nat) : Nat → Bytes
  | 0 => []
  | w + 1 => UInt8.ofNat n :: le (n / 256) w

/-- The number a little-endian byte string denotes. -/
def leNat : Bytes → Nat
  | [] => 0
  | b :: bs => b.toNat + 256 * leNat bs

@[simp] theorem le_length (n w : Nat) : (le n w).length = w := by
  induction w generalizing n with
  | zero => rfl
  | succ w ih => simp [le, ih]

theorem leNat_le (n w : Nat) : leNat (le n w) = n % 256 ^ w := by
  induction w generalizing n with
  | zero => simp [le, leNat, Nat.mod_one]
  | succ w ih =>
      rw [le, leNat, ih, Nat.pow_succ', Nat.mod_mul, UInt8.toNat_ofNat']

theorem le_leNat (w : Bytes) : le (leNat w) w.length = w := by
  induction w with
  | nil => rfl
  | cons b bs ih =>
      have hb : b.toNat < 256 := b.toNat_lt
      have hlow : UInt8.ofNat (b.toNat + 256 * leNat bs) = b := by
        apply UInt8.toNat_inj.mp
        rw [UInt8.toNat_ofNat']
        omega
      have hhigh : (b.toNat + 256 * leNat bs) / 256 = leNat bs := by omega
      rw [leNat, List.length_cons, le, hlow, hhigh, ih]

theorem leNat_lt (w : Bytes) : leNat w < 256 ^ w.length := by
  induction w with
  | nil => simp [leNat]
  | cons b bs ih =>
      have hb : b.toNat < 256 := b.toNat_lt
      rw [leNat, List.length_cons, Nat.pow_succ']
      omega

/-- Only the low bytes are written. -/
theorem le_mod (n w : Nat) : le (n % 256 ^ w) w = le n w := by
  have h := le_leNat (le n w)
  rwa [leNat_le, le_length] at h

theorem leNat_le_of_lt {n w : Nat} (h : n < 256 ^ w) : leNat (le n w) = n := by
  rw [leNat_le, Nat.mod_eq_of_lt h]

/-- The low `w` bytes of `n`, most significant first. -/
def be (n w : Nat) : Bytes := (le n w).reverse

/-- The number a big-endian byte string denotes. -/
def beNat (w : Bytes) : Nat := leNat w.reverse

@[simp] theorem be_length (n w : Nat) : (be n w).length = w := by
  rw [be, List.length_reverse, le_length]

theorem beNat_be (n w : Nat) : beNat (be n w) = n % 256 ^ w := by
  rw [beNat, be, List.reverse_reverse, leNat_le]

/-! Bytes overwritten by others. -/

/-- The bytes from `pos` on replaced by `new`. -/
def patch (w : Bytes) (pos : Nat) (new : Bytes) : Bytes :=
  w.take pos ++ new ++ w.drop (pos + new.length)

theorem patch_length {w new : Bytes} {pos : Nat} (h : pos + new.length ≤ w.length) :
    (patch w pos new).length = w.length := by
  simp only [patch, List.length_append, List.length_take, List.length_drop]
  omega

theorem patch_append_right (a w new : Bytes) (pos : Nat) :
    patch (a ++ w) (a.length + pos) new = a ++ patch w pos new := by
  rw [patch, patch, List.take_length_add_append, Nat.add_assoc, List.drop_length_add_append,
    List.append_assoc, List.append_assoc, List.append_assoc]

theorem patch_append_left {w new : Bytes} {pos : Nat} (h : pos + new.length ≤ w.length)
    (b : Bytes) : patch (w ++ b) pos new = patch w pos new ++ b := by
  rw [patch, patch, List.take_append_of_le_length (by omega), List.drop_append_of_le_length h]
  simp only [List.append_assoc]

end Bytes

end Lib
