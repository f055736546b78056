import FlexQL.Lib.Bytes

/-!
# Numerals in a text

`leadingInt` reads the number a text starts with and says nothing about what
stands around it. The texts it takes are the numerals, and the texts that are
a numeral with blanks before it or something else behind it; no text is both.
-/

namespace Lib

namespace Bytes

/-- The text is a decimal integer with an optional sign. -/
def Decimal (w : Bytes) (n : Int) : Prop :=
  ∃ sign digits, w = sign ++ digits ∧ digits ≠ [] ∧ (∀ c ∈ digits, isDigit c = true) ∧
    (sign = [45] ∧ n = -(digitsNat digits : Int) ∨
      (sign = [43] ∨ sign = []) ∧ n = digitsNat digits)

/-- The text is blanks, a numeral as long as it can be, and a rest. -/
structure Around (w blanks number rest : Bytes) (n : Int) : Prop where
  parts : w = blanks ++ (number ++ rest)
  blank : ∀ c ∈ blanks, isSpace c = true
  number : Decimal number n
  rest : ∀ c ∈ rest.head?, isDigit c = false

/-- A numeral with something around it. -/
def Padded (w : Bytes) (n : Int) : Prop :=
  ∃ blanks number rest, Around w blanks number rest n ∧ (blanks ≠ [] ∨ rest ≠ [])

variable {w cs : Bytes} {n : Int}

/-! ## Reading a numeral -/

/-- The number of the digits a text starts with. -/
def digitsAt (w : Bytes) : Option Nat :=
  if (w.takeWhile isDigit).isEmpty then none else some (digitsNat (w.takeWhile isDigit))

theorem leadingInt_minus (h : w.dropWhile isSpace = 45 :: cs) :
    leadingInt w = (digitsAt cs).map fun d : Nat => -(d : Int) := by
  simp only [leadingInt, h, digitsAt, if_true]
  split <;> rfl

theorem leadingInt_plus (h : w.dropWhile isSpace = 43 :: cs) :
    leadingInt w = (digitsAt cs).map fun d : Nat => (d : Int) := by
  simp only [leadingInt, h, digitsAt, if_true, if_neg (show ¬ (43 : UInt8) = 45 by decide)]
  split <;> rfl

theorem leadingInt_bare (h : w.dropWhile isSpace = cs) (hsign : ∀ c ∈ cs.head?, c ≠ 45 ∧ c ≠ 43) :
    leadingInt w = (digitsAt cs).map fun d : Nat => (d : Int) := by
  cases cs with
  | nil => simp only [leadingInt, h]; rfl
  | cons c cs =>
      obtain ⟨hminus, hplus⟩ := hsign c rfl
      simp only [leadingInt, h, digitsAt, if_neg hminus, if_neg hplus]
      split <;> rfl

theorem digitsAt_eq_some {d : Nat} : digitsAt w = some d ↔ ∃ digits rest, w = digits ++ rest ∧
    digits ≠ [] ∧ (∀ c ∈ digits, isDigit c = true) ∧ d = digitsNat digits ∧
      ∀ c ∈ rest.head?, isDigit c = false := by
  rw [digitsAt]
  constructor
  · intro h
    split at h
    · exact absurd h nofun
    · next hne =>
        refine ⟨w.takeWhile isDigit, w.dropWhile isDigit,
          List.takeWhile_append_dropWhile.symm, by simpa using hne,
          fun c hc => List.mem_takeWhile_imp hc, (Option.some.inj h).symm, fun c hc => ?_⟩
        have hstop := List.head?_dropWhile_not isDigit w
        rw [Option.mem_def.mp hc] at hstop
        simpa using hstop
  · rintro ⟨digits, rest, rfl, hne, hdigits, rfl, hrest⟩
    have htake : (digits ++ rest).takeWhile isDigit = digits := by
      rw [List.takeWhile_append_of_pos hdigits]
      cases rest with
      | nil => rw [List.takeWhile_nil, List.append_nil]
      | cons c cs =>
          rw [List.takeWhile_cons_of_neg (by rw [hrest c rfl]; decide), List.append_nil]
    rw [htake, if_neg (by simpa using hne)]

/-! ## The texts that are taken -/

/-- A numeral starts with a sign or a digit and goes on with digits. -/
theorem Decimal.head (h : Decimal w n) : ∃ c cs, w = c :: cs ∧ isSpace c = false ∧
    ∀ d ∈ cs, isDigit d = true := by
  obtain ⟨sign, digits, rfl, hne, hdigits, hsign⟩ := h
  have hsigns : sign = [45] ∨ sign = [43] ∨ sign = [] := by
    rcases hsign with ⟨h, -⟩ | ⟨h | h, -⟩ <;> simp [h]
  rcases hsigns with rfl | rfl | rfl
  · exact ⟨45, digits, rfl, by decide, hdigits⟩
  · exact ⟨43, digits, rfl, by decide, hdigits⟩
  · obtain ⟨c, cs, rfl⟩ := List.exists_cons_of_ne_nil hne
    exact ⟨c, cs, rfl, (not_isSpace_of_isDigit c (hdigits c (by simp))).1,
      fun d hd => hdigits d (List.mem_cons_of_mem c hd)⟩

theorem Around.leadingInt_eq {blanks number rest : Bytes} (h : Around w blanks number rest n) :
    leadingInt w = some n := by
  have hdrop : w.dropWhile isSpace = number ++ rest := by
    obtain ⟨c, cs, hc, hspace, -⟩ := h.number.head
    rw [h.parts, List.dropWhile_append_of_pos h.blank, hc, List.cons_append,
      List.dropWhile_cons_of_neg (by rw [hspace]; decide)]
  obtain ⟨sign, digits, hnumber, hne, hdigits, hsign⟩ := h.number
  have hat : digitsAt (digits ++ rest) = some (digitsNat digits) :=
    digitsAt_eq_some.mpr ⟨digits, rest, rfl, hne, hdigits, rfl, h.rest⟩
  rw [hnumber, List.append_assoc] at hdrop
  rcases hsign with ⟨rfl, rfl⟩ | ⟨rfl | rfl, rfl⟩
  · exact (leadingInt_minus hdrop).trans (congrArg _ hat)
  · exact (leadingInt_plus hdrop).trans (congrArg _ hat)
  · refine (leadingInt_bare hdrop fun c hc => ?_).trans (by rw [List.nil_append, hat]; rfl)
    obtain ⟨d, ds, rfl⟩ := List.exists_cons_of_ne_nil hne
    obtain rfl := Option.some.inj hc
    exact (not_isSpace_of_isDigit _ (hdigits _ (by simp))).2

theorem exists_around (h : leadingInt w = some n) :
    ∃ blanks number rest, Around w blanks number rest n := by
  have hw : w = w.takeWhile isSpace ++ w.dropWhile isSpace :=
    List.takeWhile_append_dropWhile.symm
  have hblank : ∀ c ∈ w.takeWhile isSpace, isSpace c = true := fun c hc =>
    List.mem_takeWhile_imp hc
  -- with the sign that stands before the digits
  have hfound : ∀ {s cs : Bytes} {f : Nat → Int}, w.dropWhile isSpace = s ++ cs →
      leadingInt w = (digitsAt cs).map f → (s = [45] ∧ (f = fun d : Nat => -(d : Int)) ∨
        (s = [43] ∨ s = []) ∧ f = fun d : Nat => (d : Int)) →
      ∃ blanks number rest, Around w blanks number rest n := by
    intro s cs f hdrop hread hsign
    rw [h] at hread
    obtain ⟨d, hd, hn⟩ := Option.map_eq_some_iff.mp hread.symm
    obtain ⟨digits, rest, rfl, hne, hdigits, rfl, hrest⟩ := digitsAt_eq_some.mp hd
    refine ⟨w.takeWhile isSpace, s ++ digits, rest, ⟨?_, hblank,
      ⟨s, digits, rfl, hne, hdigits, ?_⟩, hrest⟩⟩
    · rw [List.append_assoc, ← hdrop]
      exact hw
    · rcases hsign with ⟨hs, rfl⟩ | ⟨hs, rfl⟩
      · exact .inl ⟨hs, hn.symm⟩
      · exact .inr ⟨hs, hn.symm⟩
  cases hdrop : w.dropWhile isSpace with
  | nil =>
      exact hfound (s := []) hdrop (leadingInt_bare hdrop nofun) (.inr ⟨.inr rfl, rfl⟩)
  | cons c cs =>
      by_cases hminus : c = 45
      · subst hminus
        exact hfound (s := [45]) hdrop (leadingInt_minus hdrop) (.inl ⟨rfl, rfl⟩)
      · by_cases hplus : c = 43
        · subst hplus
          exact hfound (s := [43]) hdrop (leadingInt_plus hdrop) (.inr ⟨.inl rfl, rfl⟩)
        · refine hfound (s := []) hdrop (leadingInt_bare hdrop fun d hd => ?_)
            (.inr ⟨.inr rfl, rfl⟩)
          obtain rfl := Option.some.inj hd
          exact ⟨hminus, hplus⟩

/-- The texts a number is read from. -/
theorem leadingInt_eq_some : leadingInt w = some n ↔ Decimal w n ∨ Padded w n := by
  constructor
  · intro h
    obtain ⟨blanks, number, rest, haround⟩ := exists_around h
    by_cases hbare : blanks = [] ∧ rest = []
    · obtain ⟨rfl, rfl⟩ := hbare
      rw [haround.parts, List.nil_append, List.append_nil]
      exact .inl haround.number
    · exact .inr ⟨blanks, number, rest, haround, Classical.not_and_iff_not_or_not.mp hbare⟩
  · rintro (h | ⟨blanks, number, rest, h, -⟩)
    · have haround : Around w [] w [] n :=
        ⟨(List.append_nil w).symm, fun _ hc => absurd hc (by simp), h,
          fun _ hc => absurd hc (by simp)⟩
      exact haround.leadingInt_eq
    · exact h.leadingInt_eq

/-- Nothing stands around a numeral. -/
theorem Decimal.not_padded {m : Int} (h : Decimal w n) : ¬ Padded w m := by
  rintro ⟨blanks, number, rest, haround, hmore⟩
  obtain ⟨c, cs, rfl, hspace, hdigits⟩ := h.head
  cases blanks with
  | cons b bs =>
      obtain ⟨rfl, -⟩ := List.cons.inj haround.parts
      rw [haround.blank c (by simp)] at hspace
      exact absurd hspace nofun
  | nil =>
      obtain ⟨d, ds, rfl, -⟩ := haround.number.head
      obtain ⟨-, hcs⟩ := List.cons.inj haround.parts
      obtain ⟨e, es, rfl⟩ := List.exists_cons_of_ne_nil (hmore.resolve_left (by simp))
      exact absurd (haround.rest e rfl) (by rw [hdigits e (by rw [hcs]; simp)]; nofun)

end Bytes

end Lib
