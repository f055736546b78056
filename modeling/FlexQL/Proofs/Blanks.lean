import FlexQL.Lib.Blanks
import FlexQL.Proofs.Reprint

/-!
# Texts that differ in blanks

A text with its runs of blanks squeezed has the same tokens, only strings may
differ: they are the only tokens with blanks in them. Where a string ends does
not change, for a blank is neither a quote nor a backslash. A blank or a
semicolon at the end of a text changes none of the tokens before it.
-/

namespace FlexQL.Proofs

open Lib FlexQL.Ref

/-! ## Fewer blanks -/

/-- The second step reads the same token from a text with fewer blanks. -/
structure Squeezed (r r' : Token × Lexer) : Prop where
  type : r'.1.type = r.1.type
  value : r.1.type ≠ .stringLiteral → r'.1.value = r.1.value
  rest : r'.2.rest = Bytes.squeeze false r.2.rest
  error : r'.2.error = []

theorem digit_kinds : ∀ c, Bytes.isSpace c = true →
    Bytes.isDigit c = false ∧ c ≠ 46 ∧ Lexer.isWordChar c = false ∧ c ≠ 61 ∧ c ≠ 62 ∧
      c ≠ 39 ∧ c ≠ 34 ∧ c ≠ 92 :=
  Bytes.forall_byte (by decide +kernel)

section Squeeze

variable {l l' : Lexer}

theorem readDigits_squeeze (hasDot : Bool) (w : Bytes) :
    Lexer.readDigits hasDot (Bytes.squeeze false w) = Lexer.readDigits hasDot w ∧
      (Bytes.squeeze false w).drop (Lexer.readDigits hasDot w).1.length =
        Bytes.squeeze false (w.drop (Lexer.readDigits hasDot w).1.length) := by
  induction w generalizing hasDot with
  | nil => exact ⟨rfl, rfl⟩
  | cons c cs ih =>
      cases hc : Bytes.isSpace c with
      | true =>
          have hstop : ∀ d ds, Bytes.isSpace d = true →
              Lexer.readDigits hasDot (d :: ds) = ([], hasDot) := by
            intro d ds hd
            refine readDigits_nil fun e he => ?_
            obtain rfl := Option.some.inj he
            exact ⟨(digit_kinds d hd).1, (digit_kinds d hd).2.1⟩
          rw [Bytes.squeeze_blank hc, hstop c cs hc, hstop 32 _ rfl]
          exact ⟨rfl, (Bytes.squeeze_blank hc cs).symm⟩
      | false =>
          rw [Bytes.squeeze_char hc, Lexer.readDigits, Lexer.readDigits]
          split
          · obtain ⟨hread, hdrop⟩ := ih hasDot
            rw [hread]
            exact ⟨rfl, hdrop⟩
          · split
            · obtain ⟨hread, hdrop⟩ := ih true
              rw [hread]
              exact ⟨rfl, hdrop⟩
            · exact ⟨rfl, (Bytes.squeeze_char hc false cs).symm⟩

theorem squeezed_readNumber (h : l'.rest = Bytes.squeeze false l.rest) (herr : l'.error = []) :
    Squeezed l.readNumber l'.readNumber := by
  obtain ⟨hread, hdrop⟩ := readDigits_squeeze false l.rest
  refine ⟨?_, fun _ => ?_, ?_, ?_⟩
  · simp only [Lexer.readNumber, h, hread]
  · simp only [Lexer.readNumber, h, hread]
  · simp only [Lexer.readNumber, Lexer.advanceBy_rest, h, hread, hdrop]
  · simp only [Lexer.readNumber, advanceBy_error, herr]

theorem squeezed_word (h : l'.rest = Bytes.squeeze false l.rest) (herr : l'.error = []) :
    Squeezed l.readIdentifierOrKeyword l'.readIdentifierOrKeyword := by
  have hp : ∀ c, Bytes.isSpace c = true → Lexer.isWordChar c = false := fun c hc =>
    (digit_kinds c hc).2.2.1
  have htake : l'.rest.takeWhile Lexer.isWordChar = l.rest.takeWhile Lexer.isWordChar := by
    rw [h, Bytes.takeWhile_squeeze hp]
  have hdrop : l'.rest.drop (l.rest.takeWhile Lexer.isWordChar).length =
      Bytes.squeeze false (l.rest.drop (l.rest.takeWhile Lexer.isWordChar).length) := by
    rw [drop_length_takeWhile, ← htake, drop_length_takeWhile, h, Bytes.dropWhile_run_squeeze hp]
  rw [Lexer.readIdentifierOrKeyword, Lexer.readIdentifierOrKeyword, htake]
  cases keywords.lookup (Bytes.toUpper (l.rest.takeWhile Lexer.isWordChar)) with
  | some type =>
      exact ⟨rfl, fun _ => rfl, by simpa using hdrop, (advanceBy_error _ _).trans herr⟩
  | none => exact ⟨rfl, fun _ => rfl, by simpa using hdrop, (advanceBy_error _ _).trans herr⟩

/-! A string ends where it did: a blank is no quote and no backslash. -/

theorem readQuoted_close (quote : UInt8) (cs : Bytes) :
    Lexer.readQuoted quote (quote :: cs) = ([], 1, true) := by
  cases cs with
  | nil => rw [Lexer.readQuoted, if_pos rfl]
  | cons d ds => rw [Lexer.readQuoted, if_pos rfl]

theorem readQuoted_char {quote c : UInt8} (hquote : c ≠ quote) (hescape : c ≠ 92) (cs : Bytes) :
    Lexer.readQuoted quote (c :: cs) = (c :: (Lexer.readQuoted quote cs).1,
      (Lexer.readQuoted quote cs).2.1 + 1, (Lexer.readQuoted quote cs).2.2) := by
  cases cs with
  | nil => simp only [Lexer.readQuoted, if_neg hquote, if_neg hescape]
  | cons d ds => rw [Lexer.readQuoted, if_neg hquote, if_neg hescape]

theorem readQuoted_skip {quote : UInt8} (hquote : 92 ≠ quote) (d : UInt8) (cs : Bytes) :
    Lexer.readQuoted quote (92 :: d :: cs) = (d :: (Lexer.readQuoted quote cs).1,
      (Lexer.readQuoted quote cs).2.1 + 2, (Lexer.readQuoted quote cs).2.2) := by
  rw [Lexer.readQuoted, if_neg hquote, if_pos rfl]

/-- What two readers of strings leave, when both find the quote. -/
def EndsSqueezed (quote : UInt8) (x y : Bytes) : Prop :=
  (Lexer.readQuoted quote y).2.2 = (Lexer.readQuoted quote x).2.2 ∧
    ((Lexer.readQuoted quote x).2.2 = true → y.drop (Lexer.readQuoted quote y).2.1 =
      Bytes.squeeze false (x.drop (Lexer.readQuoted quote x).2.1))

theorem endsSqueezed_char {quote c d : UInt8} {x y : Bytes} (hc : c ≠ quote ∧ c ≠ 92)
    (hd : d ≠ quote ∧ d ≠ 92) (h : EndsSqueezed quote x y) :
    EndsSqueezed quote (c :: x) (d :: y) := by
  rw [EndsSqueezed, readQuoted_char hc.1 hc.2, readQuoted_char hd.1 hd.2]
  exact h

theorem readQuoted_squeeze {quote : UInt8} (hquote : quote = 39 ∨ quote = 34) (inSpace : Bool)
    (x : Bytes) : EndsSqueezed quote x (Bytes.squeeze inSpace x) := by
  have hblank : ∀ c, Bytes.isSpace c = true → c ≠ quote ∧ c ≠ 92 := by
    intro c hc
    obtain ⟨-, -, -, -, -, h39, h34, h92⟩ := digit_kinds c hc
    rcases hquote with rfl | rfl
    · exact ⟨h39, h92⟩
    · exact ⟨h34, h92⟩
  have hescape : 92 ≠ quote := by rcases hquote with rfl | rfl <;> decide
  induction hlen : x.length using Nat.strongRecOn generalizing x inSpace with
  | ind len ih =>
      subst hlen
      cases x with
      | nil => exact ⟨rfl, fun h => absurd h (by simp [Lexer.readQuoted])⟩
      | cons c cs =>
          have hcs : ∀ b, EndsSqueezed quote cs (Bytes.squeeze b cs) := fun b =>
            ih cs.length (Nat.lt_succ_self _) b cs rfl
          cases hc : Bytes.isSpace c with
          | true =>
              cases inSpace with
              | true =>
                  -- the blank is in the string and not in the squeezed one
                  rw [Bytes.squeeze_more hc, EndsSqueezed,
                    readQuoted_char (hblank c hc).1 (hblank c hc).2]
                  exact hcs true
              | false =>
                  rw [Bytes.squeeze_blank hc]
                  exact endsSqueezed_char (hblank c hc) (hblank 32 rfl) (hcs true)
          | false =>
              rw [Bytes.squeeze_char hc]
              by_cases hend : c = quote
              · subst hend
                rw [EndsSqueezed, readQuoted_close, readQuoted_close]
                exact ⟨rfl, fun _ => rfl⟩
              · by_cases hback : c = 92
                · subst hback
                  cases cs with
                  | nil => exact ⟨rfl, fun h => absurd h (by rw [Lexer.readQuoted]; simp [hend])⟩
                  | cons d ds =>
                      have hds : ∀ b, EndsSqueezed quote ds (Bytes.squeeze b ds) := fun b =>
                        ih ds.length (by simp only [List.length_cons]; omega) b ds rfl
                      cases hd : Bytes.isSpace d with
                      | true =>
                          rw [Bytes.squeeze_blank hd, EndsSqueezed, readQuoted_skip hescape,
                            readQuoted_skip hescape]
                          exact hds true
                      | false =>
                          rw [Bytes.squeeze_char hd, EndsSqueezed, readQuoted_skip hescape,
                            readQuoted_skip hescape]
                          exact hds false
                · exact endsSqueezed_char ⟨hend, hback⟩ ⟨hend, hback⟩ (hcs false)

theorem readString_closed (hok : l.readString.2.error = []) :
    (Lexer.readQuoted l.peek l.advance.rest).2.2 = true := by
  simp only [Lexer.readString] at hok
  split at hok
  · next hclosed => exact hclosed
  · exact absurd (show Bytes.lit "Unterminated string literal" = [] from hok) (by decide)

theorem squeezed_readString (h : l'.rest = Bytes.squeeze false l.rest)
    (hquote : l.peek = 39 ∨ l.peek = 34) (hok : l.readString.2.error = [])
    (herr : l'.error = []) : Squeezed l.readString l'.readString := by
  obtain ⟨c, cs, hrest⟩ := List.exists_cons_of_length_pos
    (Lexer.rest_of_peek rfl (by rcases hquote with hq | hq <;> rw [hq] <;> decide))
  have hpeek : l.peek = c := by rw [Lexer.peek, hrest]; rfl
  rw [hpeek] at hquote
  have hchar : Bytes.isSpace c = false := by rcases hquote with rfl | rfl <;> decide
  have hrest' : l'.rest = c :: Bytes.squeeze false cs := by rw [h, hrest, Bytes.squeeze_char hchar]
  have hpeek' : l'.peek = c := by rw [Lexer.peek, hrest']; rfl
  have hclosed := readString_closed hok
  rw [hpeek, Lexer.advance_rest, hrest, List.tail_cons] at hclosed
  obtain ⟨hclosed', hleft⟩ := readQuoted_squeeze hquote false cs
  rw [hclosed] at hclosed'
  simp only [Lexer.readString, Lexer.advance_rest, hpeek, hpeek', hrest, hrest', List.tail_cons,
    hclosed, hclosed', if_true]
  refine ⟨rfl, fun hne => absurd rfl hne, ?_, ?_⟩
  · simp only [Lexer.advanceBy_rest, Lexer.advance_rest, hrest, hrest', List.tail_cons,
      hleft hclosed]
  · rw [advanceBy_error, advance_error, herr]

theorem peek_squeeze (h : l'.rest = Bytes.squeeze false l.rest) :
    l'.peek = if Bytes.isSpace l.peek then 32 else l.peek := by
  rw [Lexer.peek, h, List.headD_eq_head?_getD, Bytes.head?_squeeze, Lexer.peek,
    List.headD_eq_head?_getD]
  cases l.rest.head? <;> rfl

/-- A character that is no blank is seen in both texts or in neither. -/
theorem peek_squeeze_iff (h : l'.rest = Bytes.squeeze false l.rest) {k : UInt8}
    (hk : Bytes.isSpace k = false) : l'.peek = k ↔ l.peek = k := by
  rw [peek_squeeze h]
  split
  · next hc =>
      refine ⟨?_, ?_⟩
      · rintro rfl
        exact absurd hk (by decide)
      · rintro rfl
        exact absurd (hc.symm.trans hk) (by decide)
  · exact Iff.rfl

theorem advance_squeeze (h : l'.rest = Bytes.squeeze false l.rest)
    (hk : Bytes.isSpace l.peek = false) :
    l'.advance.rest = Bytes.squeeze false l.advance.rest := by
  rw [Lexer.advance_rest, Lexer.advance_rest, h]
  rw [Lexer.peek] at hk
  cases hrest : l.rest with
  | nil => rfl
  | cons c cs =>
      rw [hrest] at hk
      rw [Bytes.squeeze_char (show Bytes.isSpace c = false from hk)]
      rfl

/-- A symbol is settled by its first character and by whether `=` or `>` is
behind it. -/
theorem readSymbol_agrees {P : Token × Lexer → Token × Lexer → Prop} {c : UInt8} {col col' : Nat}
    (h61 : l'.peek = 61 ↔ l.peek = 61) (h62 : l'.peek = 62 ↔ l.peek = 62)
    (hone : ∀ type, P (l.single type c col) (l'.single type c col'))
    (htwo : ∀ k type, k = 61 ∨ k = 62 → l.peek = k → l'.peek = k →
      P (l.double type c col) (l'.double type c col'))
    (hok : (l.readSymbol c col).2.error = []) :
    P (l.readSymbol c col) (l'.readSymbol c col') := by
  have hbad : (l.unexpected c col).2.error ≠ [] := by
    simp only [Lexer.unexpected, List.append_assoc]
    exact List.append_ne_nil_of_left_ne_nil (by decide) _
  rw [Lexer.readSymbol] at hok ⊢
  rw [Lexer.readSymbol]
  simp only [h61, h62]
  split
  · exact hone _
  · next hsym =>
      rw [hsym] at hok
      dsimp only at hok
      split
      · split
        · next hp => exact htwo 61 _ (.inl rfl) hp (h61.mpr hp)
        · split
          · next hp => exact htwo 62 _ (.inr rfl) hp (h62.mpr hp)
          · exact hone _
      · split
        · split
          · next hp => exact htwo 61 _ (.inl rfl) hp (h61.mpr hp)
          · exact hone _
        · split
          · split
            · next hp => exact htwo 61 _ (.inl rfl) hp (h61.mpr hp)
            · next h₁ h₂ h₃ h₄ =>
                rw [if_neg h₁, if_neg h₂, if_pos h₃, if_neg h₄] at hok
                exact absurd hok hbad
          · next h₁ h₂ h₃ =>
              rw [if_neg h₁, if_neg h₂, if_neg h₃] at hok
              exact absurd hok hbad

theorem squeezed_readSymbol (h : l'.rest = Bytes.squeeze false l.rest) {c : UInt8}
    {col col' : Nat} (hok : (l.readSymbol c col).2.error = []) (herr : l'.error = []) :
    Squeezed (l.readSymbol c col) (l'.readSymbol c col') := by
  refine readSymbol_agrees (peek_squeeze_iff h rfl) (peek_squeeze_iff h rfl)
    (fun type => ⟨rfl, fun _ => rfl, h, herr⟩) (fun k type hk hpeek hpeek' => ?_) hok
  have hk : Bytes.isSpace k = false := by rcases hk with rfl | rfl <;> decide
  refine ⟨rfl, fun _ => ?_, advance_squeeze h (by rwa [hpeek]), (advance_error _).trans herr⟩
  simp only [Lexer.double, hpeek, hpeek']

theorem peek_advance (l : Lexer) : l.rest.getD 1 0 = l.advance.peek := by
  rw [Lexer.peek, Lexer.advance_rest]
  rcases l.rest with _ | ⟨c, _ | ⟨d, ds⟩⟩ <;> rfl

theorem digit_next (h : l'.rest = Bytes.squeeze false l.rest) :
    Bytes.isDigit l'.peek = Bytes.isDigit l.peek := by
  rw [peek_squeeze h]
  split
  · next hc => rw [(digit_kinds _ hc).1]; rfl
  · rfl

/-- A token, behind the blanks. -/
theorem squeezed_nextToken {c : UInt8} {cs : Bytes} (hrest : l.rest = c :: cs)
    (hc : Bytes.isSpace c = false) (h : l'.rest = Bytes.squeeze false l.rest)
    (hok : (l.nextToken c).2.error = []) (herr : l'.error = []) :
    Squeezed (l.nextToken c) (l'.nextToken c) := by
  have hpeek : l.peek = c := by rw [Lexer.peek, hrest]; rfl
  have hadv := advance_squeeze h (by rwa [hpeek])
  rw [Lexer.nextToken, peek_advance] at hok ⊢
  rw [Lexer.nextToken, peek_advance, digit_next hadv]
  split
  · exact squeezed_readNumber h herr
  · split
    · obtain ⟨htype, hvalue, hleft, hclean⟩ :=
        squeezed_readNumber hadv ((advance_error _).trans herr)
      have hvalue := hvalue (readNumber_plain _)
      refine ⟨?_, fun _ => ?_, hleft, hclean⟩
      · simp only [hvalue, htype]
      · simp only [hvalue]
    · split
      · exact squeezed_word h herr
      · next h₁ h₂ h₃ =>
          rw [if_neg h₁, if_neg h₂, if_neg h₃] at hok
          split
          · next hquote =>
              rw [if_pos hquote] at hok
              refine squeezed_readString h ?_ hok herr
              simpa [hpeek] using hquote
          · next hquote =>
              rw [if_neg hquote] at hok
              exact squeezed_readSymbol hadv hok ((advance_error _).trans herr)

theorem not_space_skipped {c : UInt8} {cs : Bytes} (h : l.skipWhitespace.rest = c :: cs) :
    Bytes.isSpace c = false := by
  rw [skipWhitespace_rest] at h
  have hnot := List.head?_dropWhile_not Bytes.isSpace l.rest
  rw [h] at hnot
  exact hnot

/-- The second token is the first one; a string may have other characters. -/
def Respelt (t t' : Token) : Prop :=
  t'.type = t.type ∧ (t.type ≠ .stringLiteral → t'.value = t.value)

/-- All tokens: the texts are the same but for blanks, which may also stand
in front of one of them only. -/
theorem respelt_tokenizeLoop
    (h : l'.rest.dropWhile Bytes.isSpace = Bytes.squeeze false (l.rest.dropWhile Bytes.isSpace))
    (hok : l.tokenizeLoop.2.error = []) (herr : l'.error = []) :
    List.Forall₂ Respelt l.tokenizeLoop.1 l'.tokenizeLoop.1 ∧ l'.tokenizeLoop.2.error = [] := by
  induction hlen : l.rest.length using Nat.strongRecOn generalizing l l' with
  | ind len ih =>
      subst hlen
      rw [← skipWhitespace_rest, ← skipWhitespace_rest] at h
      have herr' : l'.skipWhitespace.error = [] := (skipWhitespace_error l').trans herr
      cases hskip : l.skipWhitespace.rest with
      | nil =>
          have hskip' : l'.skipWhitespace.rest = [] := by rw [h, hskip]; rfl
          rw [tokenizeLoop_nil hskip, tokenizeLoop_nil hskip']
          exact ⟨.nil, herr'⟩
      | cons c cs =>
          have hc : Bytes.isSpace c = false := not_space_skipped hskip
          have hskip' : l'.skipWhitespace.rest = c :: Bytes.squeeze false cs := by
            rw [h, hskip, Bytes.squeeze_char hc]
          have hlt : (l.skipWhitespace.nextToken c).2.rest.length < l.rest.length :=
            Nat.lt_of_lt_of_le (Lexer.takes_nextToken hskip).1 l.skipWhitespace_le
          rw [tokenizeLoop_cons hskip] at hok ⊢
          rw [tokenizeLoop_cons hskip']
          obtain ⟨htype, hvalue, hrest, hclean⟩ :=
            squeezed_nextToken hskip hc h (stable_tokenizeLoop _ hok).1 herr'
          obtain ⟨htokens, hend⟩ := ih _ hlt
            (by rw [hrest, Bytes.dropWhile_squeeze]) hok hclean rfl
          exact ⟨.cons ⟨htype, hvalue⟩ htokens, hend⟩

end Squeeze

/-! ## Blanks and semicolons at the end -/

/-- The second step reads the same token from a text that ends before `w`. -/
structure Shortened (w : Bytes) (r r' : Token × Lexer) : Prop where
  token : erase r.1 = erase r'.1
  rest : r.2.rest = r'.2.rest ++ w
  error : r'.2.error = []

section Ending

variable {w : Bytes} {l l' : Lexer} (hw : ∀ c ∈ w, c = 59 ∨ c = 32)

include hw

theorem ending_head : ∀ c ∈ w.head?, Bytes.isDigit c = false ∧ c ≠ 46 ∧
    Lexer.isWordChar c = false ∧ c ≠ 61 ∧ c ≠ 62 := by
  intro c hc
  rcases hw c (List.mem_of_mem_head? hc) with rfl | rfl <;> decide

theorem readDigits_ending (hasDot : Bool) (x : Bytes) :
    Lexer.readDigits hasDot (x ++ w) = Lexer.readDigits hasDot x := by
  induction x generalizing hasDot with
  | nil =>
      exact readDigits_nil fun c hc => ⟨(ending_head hw c hc).1, (ending_head hw c hc).2.1⟩
  | cons c cs ih => rw [List.cons_append, Lexer.readDigits, Lexer.readDigits, ih, ih]

theorem shortened_readNumber (h : l.rest = l'.rest ++ w) (herr : l'.error = []) :
    Shortened w l.readNumber l'.readNumber := by
  have hread : Lexer.readDigits false l.rest = Lexer.readDigits false l'.rest := by
    rw [h, readDigits_ending hw]
  refine ⟨?_, ?_, ?_⟩
  · simp only [Lexer.readNumber, erase, hread]
  · simp only [Lexer.readNumber, Lexer.advanceBy_rest, hread]
    rw [h, List.drop_append_of_le_length (Lexer.readDigits_le _ _)]
  · simp only [Lexer.readNumber, advanceBy_error, herr]

theorem shortened_word (h : l.rest = l'.rest ++ w) (herr : l'.error = []) :
    Shortened w l.readIdentifierOrKeyword l'.readIdentifierOrKeyword := by
  have htake : l.rest.takeWhile Lexer.isWordChar = l'.rest.takeWhile Lexer.isWordChar := by
    rw [h, List.takeWhile_append]
    split
    · next hall =>
        have hstop : w.takeWhile Lexer.isWordChar = [] :=
          takeWhile_stop (w := []) (fun c hc => absurd hc List.not_mem_nil) fun c hc =>
            (ending_head hw c hc).2.2.1
        rw [hstop, List.append_nil, (List.takeWhile_prefix _).eq_of_length hall]
    · rfl
  have hdrop : ∀ n, n = (l'.rest.takeWhile Lexer.isWordChar).length →
      (l.advanceBy n).rest = (l'.advanceBy n).rest ++ w := by
    rintro n rfl
    rw [Lexer.advanceBy_rest, Lexer.advanceBy_rest, h,
      List.drop_append_of_le_length (List.takeWhile_sublist _).length_le]
  rw [Lexer.readIdentifierOrKeyword, Lexer.readIdentifierOrKeyword, htake]
  cases keywords.lookup (Bytes.toUpper (l'.rest.takeWhile Lexer.isWordChar)) with
  | some type => exact ⟨rfl, hdrop _ rfl, (advanceBy_error _ _).trans herr⟩
  | none => exact ⟨rfl, hdrop _ rfl, (advanceBy_error _ _).trans herr⟩

/-- There is no quote to close a string with. -/
theorem readQuoted_open {quote : UInt8} (hquote : quote = 39 ∨ quote = 34) :
    (Lexer.readQuoted quote w).2.2 = false := by
  induction w with
  | nil => rw [Lexer.readQuoted]
  | cons c cs ih =>
      have hc : c ≠ quote ∧ c ≠ 92 := by
        rcases hw c (by simp) with rfl | rfl <;> rcases hquote with rfl | rfl <;> decide
      rw [readQuoted_char hc.1 hc.2]
      exact ih fun d hd => hw d (List.mem_cons_of_mem c hd)

theorem readQuoted_ending {quote : UInt8} (hquote : quote = 39 ∨ quote = 34) (x : Bytes)
    (hclosed : (Lexer.readQuoted quote (x ++ w)).2.2 = true) :
    Lexer.readQuoted quote (x ++ w) = Lexer.readQuoted quote x := by
  have hescape : 92 ≠ quote := by rcases hquote with rfl | rfl <;> decide
  induction hlen : x.length using Nat.strongRecOn generalizing x with
  | ind len ih =>
      subst hlen
      cases x with
      | nil => exact absurd ((readQuoted_open hw hquote).symm.trans hclosed) (by decide)
      | cons c cs =>
          by_cases hend : c = quote
          · subst hend
            rw [List.cons_append, readQuoted_close, readQuoted_close]
          · by_cases hback : c = 92
            · subst hback
              cases cs with
              | nil =>
                  -- the backslash is the last character, so nothing can close the string
                  cases w with
                  | nil => rfl
                  | cons d ds =>
                      rw [List.cons_append, List.nil_append, readQuoted_skip hescape] at hclosed
                      have hopen := readQuoted_open (w := ds)
                        (fun e he => hw e (List.mem_cons_of_mem d he)) hquote
                      exact absurd (hopen.symm.trans hclosed) (by decide)
              | cons d ds =>
                  rw [List.cons_append, List.cons_append, readQuoted_skip hescape] at hclosed ⊢
                  rw [readQuoted_skip hescape,
                    ih ds.length (by simp only [List.length_cons]; omega) ds hclosed rfl]
            · rw [List.cons_append, readQuoted_char hend hback] at hclosed ⊢
              rw [readQuoted_char hend hback, ih cs.length (Nat.lt_succ_self _) cs hclosed rfl]

omit hw in
theorem peek_ending_iff (h : l.rest = l'.rest ++ w) {k : UInt8} (hk : k ≠ 0)
    (hne : ∀ c ∈ w.head?, c ≠ k) : l.peek = k ↔ l'.peek = k := by
  rw [Lexer.peek, Lexer.peek, h]
  cases l'.rest with
  | cons c cs => exact Iff.rfl
  | nil =>
      cases w with
      | nil => exact Iff.rfl
      | cons c cs => exact iff_of_false (hne c rfl) (Ne.symm hk)

omit hw in
theorem advance_ending (h : l.rest = l'.rest ++ w) (hne : l'.rest ≠ []) :
    l.advance.rest = l'.advance.rest ++ w := by
  rw [Lexer.advance_rest, Lexer.advance_rest, h, List.tail_append_of_ne_nil hne]

theorem shortened_readString (h : l.rest = l'.rest ++ w) {c : UInt8} {cs : Bytes}
    (hrest : l'.rest = c :: cs) (hquote : c = 39 ∨ c = 34) (hok : l.readString.2.error = [])
    (herr : l'.error = []) : Shortened w l.readString l'.readString := by
  have hpeek : l.peek = c := by rw [Lexer.peek, h, hrest]; rfl
  have hpeek' : l'.peek = c := by rw [Lexer.peek, hrest]; rfl
  have hadv : l.advance.rest = cs ++ w := by rw [Lexer.advance_rest, h, hrest]; rfl
  have hadv' : l'.advance.rest = cs := by rw [Lexer.advance_rest, hrest]; rfl
  have hclosed := readString_closed hok
  rw [hpeek, hadv] at hclosed
  have hread := readQuoted_ending hw hquote cs hclosed
  rw [hread] at hclosed
  simp only [Lexer.readString, hpeek, hpeek', hadv, hadv', hread, hclosed, if_true]
  refine ⟨rfl, ?_, ?_⟩
  · rw [Lexer.advanceBy_rest, Lexer.advanceBy_rest, hadv, hadv',
      List.drop_append_of_le_length (Lexer.readQuoted_le c cs).2]
  · rw [advanceBy_error, advance_error, herr]

theorem shortened_readSymbol (h : l.rest = l'.rest ++ w) {c : UInt8} {col col' : Nat}
    (hok : (l.readSymbol c col).2.error = []) (herr : l'.error = []) :
    Shortened w (l.readSymbol c col) (l'.readSymbol c col') := by
  have hpeek : ∀ k, k = 61 ∨ k = 62 → (l'.peek = k ↔ l.peek = k) := by
    intro k hk
    refine (peek_ending_iff h ?_ fun c hc => ?_).symm
    · rcases hk with rfl | rfl <;> decide
    · obtain ⟨-, -, -, h61, h62⟩ := ending_head hw c hc
      rcases hk with rfl | rfl
      · exact h61
      · exact h62
  refine readSymbol_agrees (hpeek 61 (.inl rfl)) (hpeek 62 (.inr rfl))
    (fun type => ⟨rfl, h, herr⟩) (fun k type hk hp hp' => ?_) hok
  have hne : l'.rest ≠ [] := List.ne_nil_of_length_pos
    (Lexer.rest_of_peek hp' (by rcases hk with rfl | rfl <;> decide))
  refine ⟨?_, advance_ending h hne, (advance_error _).trans herr⟩
  simp only [Lexer.double, erase, hp, hp']

theorem digit_ending (h : l.rest = l'.rest ++ w) :
    Bytes.isDigit l.peek = Bytes.isDigit l'.peek := by
  rw [Lexer.peek, Lexer.peek, h]
  cases l'.rest with
  | cons c cs => rfl
  | nil =>
      cases w with
      | nil => rfl
      | cons c cs => exact (ending_head hw c rfl).1

theorem shortened_nextToken (h : l.rest = l'.rest ++ w) {c : UInt8} {cs : Bytes}
    (hrest : l'.rest = c :: cs) (hok : (l.nextToken c).2.error = []) (herr : l'.error = []) :
    Shortened w (l.nextToken c) (l'.nextToken c) := by
  have hadv := advance_ending h (by rw [hrest]; exact nofun)
  have herr' : l'.advance.error = [] := (advance_error l').trans herr
  rw [Lexer.nextToken, peek_advance] at hok ⊢
  rw [Lexer.nextToken, peek_advance, ← digit_ending hw hadv]
  split
  · exact shortened_readNumber hw h herr
  · split
    · obtain ⟨htoken, hleft, hclean⟩ := shortened_readNumber hw hadv herr'
      obtain ⟨htype, hvalue⟩ := Prod.mk.inj htoken
      refine ⟨?_, hleft, hclean⟩
      simp only [erase, hvalue, htype]
    · split
      · exact shortened_word hw h herr
      · next h₁ h₂ h₃ =>
          rw [if_neg h₁, if_neg h₂, if_neg h₃] at hok
          split
          · next hquote =>
              rw [if_pos hquote] at hok
              exact shortened_readString hw h hrest (by simpa using hquote) hok herr
          · next hquote =>
              rw [if_neg hquote] at hok
              exact shortened_readSymbol hw hadv hok herr'

/-- The tokens of an ending. -/
def semicolons (w : Bytes) : List (TokenType × Bytes) :=
  (w.filter (· = 59)).map fun _ => (.semicolon, [59])

theorem lexes_ending : Lexes w (semicolons w) := by
  induction w with
  | nil => exact lexes_nil
  | cons c cs ih =>
      have ih := ih fun d hd => hw d (List.mem_cons_of_mem c hd)
      rcases hw c (by simp) with rfl | rfl
      · have hscan : Scans [59] cs (.semicolon, [59]) :=
          scans_single (by decide) fun l _ col => rfl
        exact lexes_scans hscan ih
      · exact lexes_space rfl ih

theorem lexes_blanks {x : Bytes} (hx : x.dropWhile Bytes.isSpace = []) :
    Lexes (x ++ w) (semicolons w) := by
  induction x with
  | nil => exact lexes_ending hw
  | cons c cs ih =>
      have hc : Bytes.isSpace c = true := List.dropWhile_eq_nil_iff.mp hx c (by simp)
      rw [List.dropWhile_cons_of_pos hc] at hx
      exact lexes_space hc (ih hx)

/-- The tokens before an ending are the tokens of the text without it. -/
theorem tokenizeLoop_ending (h : l.rest = l'.rest ++ w) (hok : l.tokenizeLoop.2.error = [])
    (herr : l'.error = []) :
    l.tokenizeLoop.1.map erase = l'.tokenizeLoop.1.map erase ++ semicolons w := by
  induction hlen : l'.rest.length using Nat.strongRecOn generalizing l l' with
  | ind len ih =>
      subst hlen
      cases hskip' : l'.skipWhitespace.rest with
      | nil =>
          rw [tokenizeLoop_nil hskip', List.map_nil, List.nil_append]
          rw [skipWhitespace_rest] at hskip'
          exact (lexes_blanks hw hskip' l h).1
      | cons c cs =>
          have hskip : l.skipWhitespace.rest = l'.skipWhitespace.rest ++ w := by
            rw [skipWhitespace_rest, skipWhitespace_rest] at *
            rw [h, List.dropWhile_append, hskip']
            rfl
          have hcons : l.skipWhitespace.rest = c :: (cs ++ w) := by rw [hskip, hskip']; rfl
          have hlt : (l'.skipWhitespace.nextToken c).2.rest.length < l'.rest.length :=
            Nat.lt_of_lt_of_le (Lexer.takes_nextToken hskip').1 l'.skipWhitespace_le
          rw [tokenizeLoop_cons hcons] at hok ⊢
          rw [tokenizeLoop_cons hskip']
          obtain ⟨htoken, hrest, hclean⟩ := shortened_nextToken hw hskip hskip'
            (stable_tokenizeLoop _ hok).1 ((skipWhitespace_error l').trans herr)
          rw [List.map_cons, List.map_cons, htoken, ih _ hlt hrest hok hclean rfl]
          rfl

end Ending

end FlexQL.Proofs
