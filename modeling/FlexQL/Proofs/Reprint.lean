import FlexQL.Proofs.Lexing

/-!
# Tokens written out and read again

Every token the lexer makes is its own spelling: its text, with a space or
nothing behind it, is read as that token again. For a word, a number or an
operator this is because the loop that read it stops at a space just as it
stopped before; a string is written with single quotes, whichever it had.
-/

namespace FlexQL.Proofs

open Lib FlexQL.Ref FlexQL.Spec.Printer

/-- The text of a token is read as the token, before a space or the end. -/
def Stable (t : Token) : Prop :=
  ∀ rest : Bytes, (∀ c ∈ rest.head?, c = 32) → Scans (tokenText t) rest (erase t)

/-- If there is no error after the token then there was none before it, and
the token is its own spelling. -/
def Clean (l : Lexer) (r : Token × Lexer) : Prop := r.2.error = [] → l.error = [] ∧ Stable r.1

variable {l : Lexer} {t : Token} {w rest : Bytes}

theorem tokenText_eq (h : t.type ≠ .stringLiteral) : tokenText t = t.value := if_neg h

/-! ## Numbers -/

/-- What the loop read is read again by itself, up to a character it stops at. -/
theorem readDigits_again {hasDot : Bool} (w : Bytes)
    (hrest : ∀ c ∈ rest.head?, Bytes.isDigit c = false ∧ c ≠ 46) :
    Lexer.readDigits hasDot ((Lexer.readDigits hasDot w).1 ++ rest) =
      Lexer.readDigits hasDot w := by
  induction w generalizing hasDot with
  | nil => exact readDigits_nil hrest
  | cons c cs ih =>
      rw [Lexer.readDigits]
      split
      · next hdigit => rw [List.cons_append, Lexer.readDigits, if_pos hdigit, ih]
      · next hdigit =>
          split
          · next hdot => rw [List.cons_append, Lexer.readDigits, if_neg hdigit, if_pos hdot, ih]
          · exact readDigits_nil hrest

theorem space_stops : ∀ c : UInt8, c = 32 → (Bytes.isDigit c = false ∧ c ≠ 46) ∧
    Lexer.isWordChar c = false ∧ c ≠ 61 ∧ c ≠ 62 := by
  rintro c rfl
  decide

/-- A digit at the start is read. -/
theorem readDigits_head {c : UInt8} (cs : Bytes) (hasDot : Bool) (hc : Bytes.isDigit c = true) :
    ∃ ds, (Lexer.readDigits hasDot (c :: cs)).1 = c :: ds := by
  rw [Lexer.readDigits, if_pos hc]
  exact ⟨_, rfl⟩

theorem readNumber_again {l' : Lexer} (h : l'.rest = l.readNumber.1.value ++ rest)
    (hrest : ∀ c ∈ rest.head?, c = 32) :
    erase l'.readNumber.1 = erase l.readNumber.1 ∧ l'.readNumber.2.rest = rest := by
  have hagain : Lexer.readDigits false l'.rest = Lexer.readDigits false l.rest := by
    rw [h]
    exact readDigits_again _ fun c hc => (space_stops c (hrest c hc)).1
  refine ⟨?_, ?_⟩
  · simp only [Lexer.readNumber, erase, hagain]
  · simp only [Lexer.readNumber, Lexer.advanceBy_rest, hagain]
    rw [h]
    exact List.drop_left

theorem readNumber_plain (l : Lexer) : l.readNumber.1.type ≠ .stringLiteral := by
  simp only [Lexer.readNumber]
  split <;> decide

theorem stable_readNumber {c : UInt8} {cs : Bytes} (hl : l.rest = c :: cs)
    (hc : Bytes.isDigit c = true) : Stable l.readNumber.1 := by
  intro rest hrest
  obtain ⟨ds, hds⟩ := readDigits_head cs false hc
  have hvalue : l.readNumber.1.value = c :: ds := by rw [← hds, ← hl]; rfl
  refine ⟨c, ds, by rw [tokenText_eq (readNumber_plain l), hvalue],
    (Bytes.not_isSpace_of_isDigit c hc).1, fun l' hl' => ?_⟩
  rw [tokenText_eq (readNumber_plain l)] at hl'
  obtain ⟨htoken, hleft⟩ := readNumber_again hl' hrest
  rw [Lexer.nextToken, if_pos hc]
  exact ⟨htoken, hleft, advanceBy_error _ _⟩

theorem nextToken_minus (h : Bytes.isDigit (l.rest.getD 1 0) = true) : l.nextToken 45 =
    (⟨if (45 :: l.advance.readNumber.1.value).contains 46 then .floatLiteral
      else l.advance.readNumber.1.type, 45 :: l.advance.readNumber.1.value,
      l.advance.readNumber.1.line, l.col⟩, l.advance.readNumber.2) := by
  rw [Lexer.nextToken, if_neg (by decide), h, if_pos (by decide)]

/-- A minus sign with the number behind it. -/
theorem stable_minus {c : UInt8} {cs : Bytes} (hl : l.advance.rest = c :: cs)
    (hc : Bytes.isDigit c = true) (line col : Nat) :
    Stable ⟨if (45 :: l.advance.readNumber.1.value).contains 46 then .floatLiteral
      else l.advance.readNumber.1.type, 45 :: l.advance.readNumber.1.value, line, col⟩ := by
  intro rest hrest
  obtain ⟨ds, hds⟩ := readDigits_head cs false hc
  have hvalue : l.advance.readNumber.1.value = c :: ds := by rw [← hds, ← hl]; rfl
  have hplain : (if (45 :: l.advance.readNumber.1.value).contains 46 then .floatLiteral
      else l.advance.readNumber.1.type : TokenType) ≠ .stringLiteral := by
    split
    · decide
    · exact readNumber_plain _
  rw [tokenText_eq hplain]
  refine ⟨45, l.advance.readNumber.1.value, rfl, by decide, fun l' hl' => ?_⟩
  have hadv : l'.advance.rest = l.advance.readNumber.1.value ++ rest := by
    rw [Lexer.advance_rest, hl']
    rfl
  have hnext : Bytes.isDigit (l'.rest.getD 1 0) = true := by
    rw [hl', hvalue]
    exact hc
  obtain ⟨htoken, hleft⟩ := readNumber_again hadv hrest
  obtain ⟨htype, hval⟩ := Prod.mk.inj htoken
  rw [nextToken_minus hnext]
  refine ⟨?_, hleft, (advanceBy_error _ _).trans (advance_error _)⟩
  simp only [erase, htype, hval]

/-! ## Words and strings -/

theorem keyword_plain : ∀ p ∈ keywords, p.2 ≠ .stringLiteral := by decide

theorem word_char : ∀ c, (Bytes.isAlpha c || c = 95) = true → Lexer.isWordChar c = true :=
  Bytes.forall_byte (by decide +kernel)

theorem stable_word {c : UInt8} {cs : Bytes} (hl : l.rest = c :: cs)
    (hc : (Bytes.isAlpha c || c = 95) = true) : Stable l.readIdentifierOrKeyword.1 := by
  intro rest hrest
  have hstop : ∀ c ∈ rest.head?, Lexer.isWordChar c = false := fun c hc =>
    (space_stops c (hrest c hc)).2.1
  rw [Lexer.readIdentifierOrKeyword]
  split
  · next type hkey =>
      -- a keyword is written in upper case
      obtain ⟨hhead, hword, htoken, -⟩ := keyword_word _ (pair_mem_of_lookup hkey)
      have hplain : type ≠ .stringLiteral := keyword_plain _ (pair_mem_of_lookup hkey)
      rw [tokenText_eq hplain, erase, ← htoken]
      exact scans_word hhead hword hstop
  · next hfree =>
      have htoken : wordToken (l.rest.takeWhile Lexer.isWordChar) =
          (.identifier, l.rest.takeWhile Lexer.isWordChar) := by
        rw [wordToken, hfree]
      have hhead : (l.rest.takeWhile Lexer.isWordChar).head?.any
          (fun c => Bytes.isAlpha c || c = 95) = true := by
        rw [hl, List.takeWhile_cons_of_pos (word_char c hc)]
        exact hc
      rw [tokenText_eq TokenType.noConfusion, erase, ← htoken]
      exact scans_word hhead (List.all_takeWhile) hstop

theorem stable_readString (l : Lexer) : Stable l.readString.1 :=
  fun rest _ => scans_quoted l.readString.1.value rest

/-! ## Punctuation and operators -/

theorem stable_mark {type : TokenType} (h : (w, type) ∈ marks) (line col : Nat) :
    Stable ⟨type, w, line, col⟩ := by
  intro rest hrest
  have hplain : type ≠ .stringLiteral := by
    rintro rfl
    exact absurd h (by simp [marks])
  rw [tokenText_eq hplain]
  exact scans_mark h fun c hc _ => (space_stops c (hrest c hc)).2.2

/-- `;`, which no statement is printed with. -/
theorem stable_semicolon (line col : Nat) : Stable ⟨.semicolon, [59], line, col⟩ :=
  fun _ _ => scans_single (by decide) fun _ _ _ => rfl

/-- `<>`, the other spelling of `!=`. -/
theorem stable_diamond (line col : Nat) : Stable ⟨.opNe, [60, 62], line, col⟩ := by
  refine fun _ _ => scans_double (by decide) fun l hl col => ?_
  simp [Lexer.readSymbol, Lexer.symbols, List.lookup_cons, hl]

theorem symbol_mark : ∀ p ∈ Lexer.symbols, ([p.1], p.2) ∈ marks ∨ p = (59, .semicolon) := by
  decide

theorem clean_readSymbol (l : Lexer) (c : UInt8) (col : Nat) : Clean l (l.readSymbol c col) := by
  have hone : ∀ {type : TokenType}, ([c], type) ∈ marks → Clean l (l.single type c col) :=
    fun hmark h => ⟨h, stable_mark hmark _ _⟩
  have hbad : Clean l (l.unexpected c col) := fun h => absurd h (by simp [Lexer.unexpected])
  have htwo : ∀ {d : UInt8} {type : TokenType}, l.peek = d → ([c, d], type) ∈ marks →
      Clean l (l.double type c col) := by
    intro d type hd hmark h
    rw [Lexer.double, hd]
    exact ⟨(advance_error l).symm.trans h, stable_mark hmark _ _⟩
  rw [Lexer.readSymbol]
  split
  · next type hsymbol =>
      rcases symbol_mark _ (pair_mem_of_lookup hsymbol) with hmark | hsemi
      · exact hone hmark
      · obtain ⟨rfl, rfl⟩ := Prod.mk.inj hsemi
        exact fun h => ⟨h, stable_semicolon _ _⟩
  · split
    · next hc =>
        subst hc
        split
        · next hd => exact htwo hd (by decide)
        · split
          · next hd =>
              intro h
              rw [Lexer.double, hd]
              exact ⟨(advance_error l).symm.trans h, stable_diamond _ _⟩
          · exact hone (by decide)
    · split
      · next hc =>
          subst hc
          split
          · next hd => exact htwo hd (by decide)
          · exact hone (by decide)
      · split
        · next hc =>
            subst hc
            split
            · next hd => exact htwo hd (by decide)
            · exact hbad
        · exact hbad

/-! ## Texts -/

theorem clean_nextToken {c : UInt8} {cs : Bytes} (hl : l.rest = c :: cs) :
    Clean l (l.nextToken c) := by
  rw [Lexer.nextToken]
  split
  · next hc => exact fun h => ⟨(advanceBy_error _ _).symm.trans h, stable_readNumber hl hc⟩
  · split
    · next hminus =>
        obtain ⟨rfl, hnext⟩ : c = 45 ∧ Bytes.isDigit (l.rest.getD 1 0) = true := by
          rwa [Bool.and_eq_true, decide_eq_true_eq] at hminus
        intro h
        have herror : l.advance.error = [] := (advanceBy_error _ _).symm.trans h
        refine ⟨(advance_error l).symm.trans herror, ?_⟩
        cases hcs : cs with
        | nil =>
            rw [hl, hcs] at hnext
            exact absurd hnext (by decide)
        | cons d ds =>
            rw [hl, hcs] at hnext
            exact stable_minus (by rw [Lexer.advance_rest, hl, hcs]; rfl) hnext _ _
    · split
      · next hc =>
          intro h
          refine ⟨?_, stable_word hl hc⟩
          rw [Lexer.readIdentifierOrKeyword] at h
          split at h
          · exact (advanceBy_error _ _).symm.trans h
          · exact (advanceBy_error _ _).symm.trans h
      · split
        · intro h
          refine ⟨?_, stable_readString l⟩
          simp only [Lexer.readString] at h
          split at h
          · rwa [advanceBy_error, advance_error] at h
          · exact absurd h (show Bytes.lit "Unterminated string literal" ≠ [] by decide)
        · intro h
          obtain ⟨herror, hstable⟩ := clean_readSymbol _ _ _ h
          exact ⟨(advance_error l).symm.trans herror, hstable⟩

/-- In a text without an error every token is its own spelling. -/
theorem stable_tokenizeLoop (l : Lexer) (h : l.tokenizeLoop.2.error = []) :
    l.error = [] ∧ ∀ t ∈ l.tokenizeLoop.1, Stable t := by
  induction hn : l.rest.length using Nat.strong_induction_on generalizing l with
  | _ n ih =>
      cases hskip : l.skipWhitespace.rest with
      | nil =>
          rw [tokenizeLoop_nil hskip] at h ⊢
          exact ⟨(skipWhitespace_error l).symm.trans h, nofun⟩
      | cons c cs =>
          have hless : (l.skipWhitespace.nextToken c).2.rest.length < n :=
            hn ▸ Nat.lt_of_lt_of_le (Lexer.takes_nextToken hskip).1 l.skipWhitespace_le
          rw [tokenizeLoop_cons hskip] at h ⊢
          obtain ⟨herror, hstable⟩ := ih _ hless _ h rfl
          obtain ⟨herror, hfirst⟩ := clean_nextToken hskip herror
          exact ⟨(skipWhitespace_error l).symm.trans herror,
            List.forall_mem_cons.mpr ⟨hfirst, hstable⟩⟩

/-- Stable tokens, each with a space behind it, are read as themselves. -/
theorem lexes_spaced {ts : List Token} (h : ∀ t ∈ ts, Stable t) :
    Lexes ((ts.map fun t => tokenText t ++ [32]).flatten) (ts.map erase) := by
  induction ts with
  | nil => exact lexes_nil
  | cons t ts ih =>
      rw [List.map_cons, List.flatten_cons, List.append_assoc, List.map_cons]
      refine lexes_scans (h t (by simp) _ fun c hc => (Option.some.inj hc).symm) ?_
      exact lexes_space rfl (ih fun u hu => h u (List.mem_cons_of_mem t hu))

/-- The end of the input has no text, so a space stands behind every other
token. -/
theorem reprint_end (ts : List Token) (line col : Nat) :
    reprint (ts ++ [⟨.endOfInput, [], line, col⟩]) =
      (ts.map fun t => tokenText t ++ [32]).flatten := by
  induction ts with
  | nil => rfl
  | cons t ts ih =>
      obtain ⟨u, us, hus⟩ : ∃ u us, ts ++ [⟨.endOfInput, [], line, col⟩] = u :: us :=
        List.exists_cons_of_ne_nil (by simp)
      rw [List.map_cons, List.flatten_cons, ← ih, List.cons_append, hus, reprint, reprint,
        List.map_cons, List.map_cons, List.intercalate_cons_cons, List.append_assoc]

/-- A text without an error, with its tokens written out and a space between
them, has the same tokens. -/
theorem tokenize_reprint {input : Bytes} (h : (Lexer.tokenize input).2 = []) :
    (Lexer.tokenize (reprint (Lexer.tokenize input).1)).1.map erase =
        (Lexer.tokenize input).1.map erase ∧
      (Lexer.tokenize (reprint (Lexer.tokenize input).1)).2 = [] := by
  have hstable := (stable_tokenizeLoop (Lexer.new input) h).2
  have htext : reprint (Lexer.tokenize input).1 =
      ((Lexer.new input).tokenizeLoop.1.map fun t => tokenText t ++ [32]).flatten :=
    reprint_end _ _ _
  rw [htext]
  obtain ⟨htokens, herror⟩ := lexes_spaced hstable (Lexer.new _) rfl
  refine ⟨?_, herror⟩
  rw [Lexer.tokenize, Lexer.tokenize, List.map_append, List.map_append, htokens]
  rfl

/-- Words against numbers, a minus sign, two dots, an escaped quote and the
two spellings of an operator. -/
theorem tokenize_reprint_glued :
    (Lexer.tokenize (Bytes.lit "a1<>-1.2.3b >=\"it's\\\"\";")).2 = [] ∧
    ((Lexer.tokenize (reprint
        (Lexer.tokenize (Bytes.lit "a1<>-1.2.3b >=\"it's\\\"\";")).1)).1.map erase =
      (Lexer.tokenize (Bytes.lit "a1<>-1.2.3b >=\"it's\\\"\";")).1.map erase ∧
    (Lexer.tokenize (reprint
      (Lexer.tokenize (Bytes.lit "a1<>-1.2.3b >=\"it's\\\"\";")).1)).2 = []) :=
  have h : (Lexer.tokenize (Bytes.lit "a1<>-1.2.3b >=\"it's\\\"\";")).2 = [] := by
    decide +kernel
  ⟨h, tokenize_reprint h⟩

end FlexQL.Proofs
