import FlexQL.Proofs.Statements
import FlexQL.Spec.Printer

/-!
# The tokens of a rendered text

A lexeme is read back as its token when the text behind it stops it: a word
is stopped by anything that is no part of a word, an operator by anything
that would not make it a longer one. `render` puts a space wherever that is
needed, so a text is read back lexeme by lexeme.
-/

namespace FlexQL.Proofs

open Lib FlexQL.Ref FlexQL.Spec.Printer

/-- A token without its position. -/
def erase (t : Token) : TokenType × Bytes := (t.type, t.value)

@[simp] theorem advance_error (l : Lexer) : l.advance.error = l.error := by
  rw [Lexer.advance]
  split
  · rfl
  · split <;> rfl

@[simp] theorem advanceBy_error (l : Lexer) (n : Nat) : (l.advanceBy n).error = l.error := by
  induction n generalizing l with
  | zero => rfl
  | succ n ih => rw [Lexer.advanceBy, ih, advance_error]

/-! ## One token -/

/-- The token `r.1` is `p`, and the lexer stands before `rest`. -/
structure Yields (l : Lexer) (p : TokenType × Bytes) (rest : Bytes) (r : Token × Lexer) : Prop where
  token : erase r.1 = p
  rest : r.2.rest = rest
  error : r.2.error = l.error

/-- Before `rest`, a round of the loop reads the text `w` as the token `p`. -/
def Scans (w rest : Bytes) (p : TokenType × Bytes) : Prop :=
  ∃ c cs, w = c :: cs ∧ Bytes.isSpace c = false ∧
    ∀ l : Lexer, l.rest = w ++ rest → Yields l p rest (l.nextToken c)

theorem takeWhile_stop {p : UInt8 → Bool} {w rest : Bytes} (hw : ∀ c ∈ w, p c = true)
    (hrest : ∀ c ∈ rest.head?, p c = false) : (w ++ rest).takeWhile p = w := by
  rw [List.takeWhile_append_of_pos hw]
  cases rest with
  | nil => rw [List.takeWhile_nil, List.append_nil]
  | cons c cs =>
      rw [List.takeWhile_cons_of_neg (by rw [hrest c rfl]; decide), List.append_nil]

theorem word_start : ∀ c, (Bytes.isAlpha c || c = 95) = true →
    Bytes.isSpace c = false ∧ Bytes.isDigit c = false ∧ c ≠ 45 :=
  Bytes.forall_byte (by decide +kernel)

/-- The token of a word. -/
def wordToken (w : Bytes) : TokenType × Bytes :=
  match keywords.lookup (Bytes.toUpper w) with
  | some type => (type, Bytes.toUpper w)
  | none => (.identifier, w)

theorem scans_word {w rest : Bytes}
    (hhead : w.head?.any (fun c => Bytes.isAlpha c || c = 95) = true)
    (hword : w.all Lexer.isWordChar = true)
    (hrest : ∀ c ∈ rest.head?, Lexer.isWordChar c = false) : Scans w rest (wordToken w) := by
  cases w with
  | nil => exact absurd hhead (by simp)
  | cons c cs =>
      have hc : (Bytes.isAlpha c || c = 95) = true := hhead
      obtain ⟨hspace, hdigit, hminus⟩ := word_start c hc
      refine ⟨c, cs, rfl, hspace, fun l hl => ?_⟩
      have htake : l.rest.takeWhile Lexer.isWordChar = c :: cs := by
        rw [hl]
        exact takeWhile_stop (List.all_eq_true.mp hword) hrest
      have hdrop : l.rest.drop (c :: cs).length = rest := by
        rw [hl, List.drop_left]
      rw [Lexer.nextToken, hdigit, if_neg (by decide), if_neg (by simp [hminus]), if_pos hc,
        Lexer.readIdentifierOrKeyword, htake, wordToken]
      cases keywords.lookup (Bytes.toUpper (c :: cs)) with
      | none => exact ⟨rfl, by rw [Lexer.advanceBy_rest, hdrop], advanceBy_error _ _⟩
      | some type => exact ⟨rfl, by rw [Lexer.advanceBy_rest, hdrop], advanceBy_error _ _⟩

theorem readDigits_nil {hasDot : Bool} {rest : Bytes}
    (hrest : ∀ c ∈ rest.head?, Bytes.isDigit c = false ∧ c ≠ 46) :
    Lexer.readDigits hasDot rest = ([], hasDot) := by
  cases rest with
  | nil => rfl
  | cons c cs =>
      obtain ⟨hdigit, hdot⟩ := hrest c rfl
      rw [Lexer.readDigits, hdigit, if_neg (by decide), if_neg (by simp [hdot])]

theorem readDigits_stop {w rest : Bytes} (hw : ∀ c ∈ w, Bytes.isDigit c = true)
    (hrest : ∀ c ∈ rest.head?, Bytes.isDigit c = false ∧ c ≠ 46) :
    Lexer.readDigits false (w ++ rest) = (w, false) := by
  induction w with
  | nil => exact readDigits_nil hrest
  | cons c cs ih =>
      rw [List.cons_append, Lexer.readDigits, if_pos (hw c (by simp)),
        ih fun d hd => hw d (List.mem_cons_of_mem c hd)]

theorem scans_number (n : Nat) {rest : Bytes}
    (hrest : ∀ c ∈ rest.head?, Bytes.isDigit c = false ∧ c ≠ 46) :
    Scans (Bytes.ofNat n) rest (.intLiteral, Bytes.ofNat n) := by
  cases hw : Bytes.ofNat n with
  | nil => exact absurd hw (Bytes.ofNat_ne_nil n)
  | cons c cs =>
      have hdigits : ∀ d ∈ c :: cs, Bytes.isDigit d = true := by
        intro d hd
        rw [← hw] at hd
        exact Bytes.isDigit_of_mem_ofNat hd
      have hc := hdigits c (by simp)
      refine ⟨c, cs, rfl, (Bytes.not_isSpace_of_isDigit c hc).1, fun l hl => ?_⟩
      have hread : Lexer.readDigits false l.rest = (c :: cs, false) := by
        rw [hl, readDigits_stop hdigits hrest]
      rw [Lexer.nextToken, if_pos hc, Lexer.readNumber, hread]
      exact ⟨rfl, by rw [Lexer.advanceBy_rest, hl, List.drop_left], advanceBy_error _ _⟩

/-- A quoted literal ends at the first quote that is not escaped. -/
theorem readQuoted_escape (s rest : Bytes) :
    Lexer.readQuoted 39 (escape s ++ 39 :: rest) = (s, (escape s).length + 1, true) := by
  induction s with
  | nil => cases rest <;> rfl
  | cons c cs ih =>
      rw [escape]
      split
      · rw [List.cons_append, List.cons_append, Lexer.readQuoted, if_neg (by decide),
          if_pos rfl, ih]
        rfl
      · next hc =>
          have hplain : ¬c = 39 ∧ ¬c = 92 := not_or.mp hc
          obtain ⟨d, ds, hd⟩ : ∃ d ds, escape cs ++ 39 :: rest = d :: ds :=
            List.exists_cons_of_ne_nil (by simp)
          rw [List.cons_append, hd, Lexer.readQuoted, if_neg hplain.1, if_neg hplain.2, ← hd, ih]
          rfl

theorem scans_quoted (s rest : Bytes) :
    Scans (39 :: (escape s ++ [39])) rest (.stringLiteral, s) := by
  refine ⟨39, escape s ++ [39], rfl, rfl, fun l hl => ?_⟩
  have hadv : l.advance.rest = escape s ++ 39 :: rest := by
    rw [Lexer.advance_rest, hl, List.cons_append, List.tail_cons, List.append_assoc]
    rfl
  have hpeek : l.peek = 39 := by rw [Lexer.peek, hl]; rfl
  rw [Lexer.nextToken, if_neg (by decide), if_neg (by simp), if_neg (by decide), if_pos (by simp),
    Lexer.readString]
  simp only [hpeek, hadv, readQuoted_escape, if_true]
  refine ⟨rfl, ?_, ?_⟩
  · rw [Lexer.advanceBy_rest, hadv, List.append_cons, List.drop_left' (by simp)]
  · rw [advanceBy_error, advance_error]

/-- The characters the switch looks at: `(),;.*=<>!`. -/
def markChars : List UInt8 := [40, 41, 44, 59, 46, 42, 61, 60, 62, 33]

theorem mark_start : ∀ c, c ∈ markChars → Bytes.isSpace c = false ∧
    Bytes.isDigit c = false ∧ c ≠ 45 ∧ (Bytes.isAlpha c || c = 95) = false ∧ c ≠ 39 ∧ c ≠ 34 :=
  Bytes.forall_byte (by decide +kernel)

theorem nextToken_mark {c : UInt8} (h : c ∈ markChars) (l : Lexer) :
    l.nextToken c = l.advance.readSymbol c l.col := by
  obtain ⟨_, hdigit, hminus, hword, hquote, hquotes⟩ := mark_start c h
  rw [Lexer.nextToken, hdigit, if_neg (by decide), if_neg (by simp [hminus]), hword,
    if_neg (by decide), if_neg (by simp [hquote, hquotes])]

/-- A token of one character. -/
theorem scans_single {c : UInt8} {type : TokenType} {rest : Bytes}
    (hc : c ∈ markChars)
    (hread : ∀ l : Lexer, l.rest = rest → ∀ col, l.readSymbol c col = l.single type c col) :
    Scans [c] rest (type, [c]) := by
  refine ⟨c, [], rfl, (mark_start c hc).1, fun l hl => ?_⟩
  have hadv : l.advance.rest = rest := by rw [Lexer.advance_rest, hl]; rfl
  rw [nextToken_mark hc, hread _ hadv]
  exact ⟨rfl, hadv, advance_error l⟩

/-- A token of two characters. -/
theorem scans_double {c d : UInt8} {type : TokenType} {rest : Bytes}
    (hc : c ∈ markChars)
    (hread : ∀ l : Lexer, l.peek = d → ∀ col, l.readSymbol c col = l.double type c col) :
    Scans [c, d] rest (type, [c, d]) := by
  refine ⟨c, [d], rfl, (mark_start c hc).1, fun l hl => ?_⟩
  have hadv : l.advance.rest = d :: rest := by rw [Lexer.advance_rest, hl]; rfl
  have hpeek : l.advance.peek = d := by rw [Lexer.peek, hadv]; rfl
  rw [nextToken_mark hc, hread _ hpeek, Lexer.double, hpeek]
  refine ⟨rfl, ?_, ?_⟩
  · rw [Lexer.advance_rest, hadv, List.tail_cons]
  · rw [advance_error, advance_error]

/-- Punctuation and operators, before a character that does not make them longer. -/
theorem scans_mark {w rest : Bytes} {type : TokenType} (h : (w, type) ∈ marks)
    (hrest : ∀ c ∈ rest.head?, type ∈ [.opLt, .opGt] → c ≠ 61 ∧ c ≠ 62) :
    Scans w rest (type, w) := by
  have hpeek : type ∈ [.opLt, .opGt] → ∀ l : Lexer, l.rest = rest → l.peek ≠ 61 ∧ l.peek ≠ 62 := by
    intro htype l hl
    rw [Lexer.peek, hl]
    cases rest with
    | nil => decide
    | cons d ds => exact hrest d rfl htype
  simp only [marks, List.mem_cons, List.not_mem_nil, or_false, Prod.mk.injEq] at h
  rcases h with ⟨rfl, rfl⟩ | ⟨rfl, rfl⟩ | ⟨rfl, rfl⟩ | ⟨rfl, rfl⟩ | ⟨rfl, rfl⟩ | ⟨rfl, rfl⟩ |
    ⟨rfl, rfl⟩ | ⟨rfl, rfl⟩ | ⟨rfl, rfl⟩ | ⟨rfl, rfl⟩ | ⟨rfl, rfl⟩
  · refine scans_double (by decide) fun l hl col => ?_
    simp [Lexer.readSymbol, Lexer.symbols, List.lookup_cons, hl]
  · refine scans_double (by decide) fun l hl col => ?_
    simp [Lexer.readSymbol, Lexer.symbols, List.lookup_cons, hl]
  · refine scans_double (by decide) fun l hl col => ?_
    simp [Lexer.readSymbol, Lexer.symbols, List.lookup_cons, hl]
  · refine scans_single (by decide) fun l hl col => ?_
    simp [Lexer.readSymbol, Lexer.symbols, List.lookup_cons, hpeek (by decide) l hl]
  · refine scans_single (by decide) fun l hl col => ?_
    simp [Lexer.readSymbol, Lexer.symbols, List.lookup_cons, hpeek (by decide) l hl]
  all_goals exact scans_single (by decide) fun _ _ _ => rfl

/-! ## One lexeme -/

/-- A lexeme the lexer knows. -/
def WellFormed : Lexeme → Prop
  | .fixed type => spelling type ≠ []
  | .name word => Identifier word
  | .number _ => True
  | .quoted _ => True

/-- What may stand behind a lexeme. -/
def stops : Lexeme → UInt8 → Bool
  | .fixed type, c => type = .lparen || type = .dot || (!Lexer.isWordChar c && c ≠ 61 && c ≠ 62)
  | .name _, c => !Lexer.isWordChar c
  | .number _, c => !Bytes.isDigit c && c ≠ 46
  | .quoted _, _ => true

theorem spelling_mem {type : TokenType} (h : spelling type ≠ []) :
    (spelling type, type) ∈ keywords ∨ (spelling type, type) ∈ marks := by
  rw [← List.mem_append]
  rw [spelling] at h ⊢
  split at h
  · next p hp =>
      have htype : p.2 = type := by simpa using List.find?_some hp
      have hmem := List.mem_of_find?_eq_some hp
      rw [← htype]
      exact hmem
  · exact absurd rfl h

theorem keyword_word : ∀ p ∈ keywords, p.1.head?.any (fun c => Bytes.isAlpha c || c = 95) = true ∧
    p.1.all Lexer.isWordChar = true ∧ wordToken p.1 = (p.2, p.1) ∧ p.2 ≠ .lparen ∧ p.2 ≠ .dot := by
  decide +kernel

theorem scans_fixed {type : TokenType} {rest : Bytes} (h : spelling type ≠ [])
    (hrest : ∀ c ∈ rest.head?, stops (.fixed type) c = true) :
    Scans (spelling type) rest (type, spelling type) := by
  have hrest' : type ≠ .lparen → type ≠ .dot → ∀ c ∈ rest.head?,
      Lexer.isWordChar c = false ∧ c ≠ 61 ∧ c ≠ 62 := by
    intro hparen hdot c hc
    have hstop := hrest c hc
    simp only [stops, hparen, hdot, decide_false, Bool.false_or, Bool.and_eq_true,
      Bool.not_eq_true', decide_eq_true_eq] at hstop
    exact ⟨hstop.1.1, hstop.1.2, hstop.2⟩
  cases spelling_mem h with
  | inl hkey =>
      obtain ⟨hhead, hword, htoken, hparen, hdot⟩ := keyword_word _ hkey
      dsimp only at hhead hword htoken hparen hdot
      rw [← htoken]
      exact scans_word hhead hword fun c hc => (hrest' hparen hdot c hc).1
  | inr hmark =>
      refine scans_mark hmark fun c hc hop => ?_
      have hne : type ≠ .lparen ∧ type ≠ .dot := by
        simp only [List.mem_cons, List.not_mem_nil, or_false] at hop
        rcases hop with rfl | rfl <;> decide
      exact (hrest' hne.1 hne.2 c hc).2

theorem scans_lexeme {a : Lexeme} {rest : Bytes} (ha : WellFormed a)
    (hrest : ∀ c ∈ rest.head?, stops a c = true) : Scans a.text rest a.token := by
  cases a with
  | fixed type => exact scans_fixed ha hrest
  | name w =>
      have htoken : wordToken w = (.identifier, w) := by rw [wordToken, ha.free]
      rw [Lexeme.text, Lexeme.token, ← htoken]
      exact scans_word ha.head ha.word fun c hc => by simpa [stops] using hrest c hc
  | number n => exact scans_number n fun c hc => by simpa [stops] using hrest c hc
  | quoted s => exact scans_quoted s rest

/-! ## A whole text -/

/-- The loop reads the text as these tokens, without an error. -/
def Lexes (input : Bytes) (out : List (TokenType × Bytes)) : Prop :=
  ∀ l : Lexer, l.rest = input →
    l.tokenizeLoop.1.map erase = out ∧ l.tokenizeLoop.2.error = l.error

theorem skipWhitespace_error (l : Lexer) : l.skipWhitespace.error = l.error := advanceBy_error _ _

theorem lexes_nil : Lexes [] [] := by
  intro l hl
  have hskip : l.skipWhitespace.rest = [] := by rw [skipWhitespace_rest, hl]; rfl
  rw [tokenizeLoop_nil hskip]
  exact ⟨rfl, skipWhitespace_error l⟩

theorem lexes_space {c : UInt8} {rest : Bytes} {out : List (TokenType × Bytes)}
    (hc : Bytes.isSpace c = true) (h : Lexes rest out) : Lexes (c :: rest) out := by
  intro l hl
  have hadv : l.advance.rest = rest := by rw [Lexer.advance_rest, hl]; rfl
  have hskip : l.skipWhitespace = l.advance.skipWhitespace := by
    rw [Lexer.skipWhitespace, Lexer.skipWhitespace, hl, hadv, List.takeWhile_cons_of_pos hc]
    rfl
  have hloop : l.tokenizeLoop = l.advance.tokenizeLoop := by
    cases hr : l.skipWhitespace.rest with
    | nil => rw [tokenizeLoop_nil hr, tokenizeLoop_nil (hskip ▸ hr), hskip]
    | cons c cs => rw [tokenizeLoop_cons hr, hskip, ← tokenizeLoop_cons (hskip ▸ hr)]
  rw [hloop, ← advance_error l]
  exact h _ hadv

theorem lexes_scans {w rest : Bytes} {p : TokenType × Bytes} {out : List (TokenType × Bytes)}
    (hw : Scans w rest p) (h : Lexes rest out) : Lexes (w ++ rest) (p :: out) := by
  obtain ⟨c, cs, rfl, hspace, hyields⟩ := hw
  intro l hl
  have hskip : l.skipWhitespace.rest = c :: (cs ++ rest) := by
    rw [skipWhitespace_rest, hl, List.cons_append,
      List.dropWhile_cons_of_neg (by rw [hspace]; decide)]
  have hy := hyields l.skipWhitespace hskip
  have htail := h _ hy.rest
  rw [tokenizeLoop_cons hskip]
  refine ⟨?_, ?_⟩
  · rw [List.map_cons, hy.token, htail.1]
  · rw [htail.2, hy.error, skipWhitespace_error]

/-- Every lexeme is stopped by a space, a parenthesis or a comma. -/
theorem stops_of_mem (a : Lexeme) : ∀ c ∈ [32, 40, 41, 44], stops a c = true := by
  cases a with
  | fixed type =>
      have hword : ∀ c ∈ [32, 40, 41, 44], (!Lexer.isWordChar c && c ≠ 61 && c ≠ 62) = true :=
        List.all_eq_true.mp (by decide)
      exact fun c hc => Bool.or_eq_true_iff.mpr (.inr (hword c hc))
  | name w =>
      show ∀ c ∈ [32, 40, 41, 44], (!Lexer.isWordChar c) = true
      exact List.all_eq_true.mp (by decide)
  | number n =>
      show ∀ c ∈ [32, 40, 41, 44], (!Bytes.isDigit c && c ≠ 46) = true
      exact List.all_eq_true.mp (by decide)
  | quoted s => exact fun _ _ => rfl

/-- A lexeme that another one hugs is stopped by it. -/
theorem stops_hug {a b : Lexeme} (h : hugs a b = true) :
    (∀ c, stops a c = true) ∨ ∃ c, b.text = [c] ∧ stops a c = true := by
  rw [hugs.eq_def] at h
  split at h
  · exact .inl fun _ => rfl
  · exact .inl fun _ => rfl
  · exact .inr ⟨40, rfl, stops_of_mem _ 40 (by decide)⟩
  · exact .inr ⟨46, rfl, rfl⟩
  · exact .inr ⟨44, rfl, stops_of_mem _ 44 (by decide)⟩
  · exact .inr ⟨41, rfl, stops_of_mem _ 41 (by decide)⟩
  · exact absurd h (by decide)

theorem render_cons (b : Lexeme) (ls : List Lexeme) :
    ∃ more, render (b :: ls) = b.text ++ more := by
  cases ls with
  | nil => exact ⟨[], (List.append_nil _).symm⟩
  | cons c ls => exact ⟨gap b c ++ render (c :: ls), by rw [render, List.append_assoc]⟩

/-- A rendered text is read back lexeme by lexeme. -/
theorem lexes_render {ls : List Lexeme} (h : ∀ a ∈ ls, WellFormed a) :
    Lexes (render ls) (ls.map Lexeme.token) := by
  induction ls with
  | nil => exact lexes_nil
  | cons a ls ih =>
      have ha := h a (by simp)
      have ih := ih fun b hb => h b (List.mem_cons_of_mem a hb)
      cases ls with
      | nil =>
          rw [render, ← List.append_nil a.text]
          exact lexes_scans (scans_lexeme ha (by simp)) lexes_nil
      | cons b ls =>
          rw [render, List.append_assoc, gap]
          split
          · next hhug =>
              refine lexes_scans (scans_lexeme ha fun c hc => ?_) ih
              obtain ⟨more, hmore⟩ := render_cons b ls
              rw [List.nil_append, hmore] at hc
              rcases stops_hug hhug with hall | ⟨d, hd, hstop⟩
              · exact hall c
              · rw [hd] at hc
                rwa [← Option.some.inj hc]
          · refine lexes_scans (scans_lexeme ha fun c hc => ?_) (lexes_space rfl ih)
            rw [← Option.some.inj hc]
            exact stops_of_mem a 32 (by decide)

/-- The tokens of a rendered text, without their positions. -/
theorem tokenize_render {ls : List Lexeme} (h : ∀ a ∈ ls, WellFormed a) :
    (Lexer.tokenize (render ls)).1.map erase = ls.map Lexeme.token ++ [(.endOfInput, [])] ∧
      (Lexer.tokenize (render ls)).2 = [] := by
  obtain ⟨htokens, herror⟩ := lexes_render h (Lexer.new (render ls)) rfl
  refine ⟨?_, herror⟩
  rw [Lexer.tokenize, List.map_append, htokens]
  rfl

end FlexQL.Proofs
