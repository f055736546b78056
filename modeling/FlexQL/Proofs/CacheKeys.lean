import FlexQL.Proofs.Blanks
import FlexQL.Proofs.CaseFolding
import FlexQL.Proofs.Insert
import FlexQL.Spec.CacheKeys

/-!
# Queries with one key

Queries with the same normalized text have the same tokens up to case, up to
what is in quotes, and up to the semicolons at the end. The parser reads them
in lockstep: it takes the same turns, so the two queries differ only in the
texts of their names and in the literal. Those differ where they are quoted,
or where one query ends before the other.
-/

namespace FlexQL.Proofs

open Lib FlexQL.Ref FlexQL.Spec FlexQL.Spec.Grammar

/-! ## The tokens of a key -/

theorem foldl_normalizeStep (query : Bytes) (s : Bytes × Bool) :
    (query.foldl LRUCache.normalizeStep s).1 =
      s.1 ++ Bytes.squeeze (s.2 || s.1.isEmpty) (Bytes.toUpper query) := by
  induction query generalizing s with
  | nil => rw [List.foldl_nil, Bytes.toUpper_nil, Bytes.squeeze, List.append_nil]
  | cons c cs ih =>
      rw [List.foldl_cons, ih, LRUCache.normalizeStep, Bytes.toUpper_cons]
      cases hc : Bytes.isSpace c with
      | true =>
          have hup : Bytes.isSpace (Bytes.upperChar c) = true := by
            rw [Bytes.isSpace_upperChar, hc]
          rw [if_pos rfl]
          cases hin : s.2 || s.1.isEmpty with
          | true =>
              rw [if_neg (by rw [← Bool.not_or, hin]; decide), hin, Bytes.squeeze_more hup]
          | false =>
              rw [if_pos (by rw [← Bool.not_or, hin]; decide), Bytes.squeeze_blank hup,
                Bool.true_or, List.append_assoc]
              rfl
      | false =>
          have hup : Bytes.isSpace (Bytes.upperChar c) = false := by
            rw [Bytes.isSpace_upperChar, hc]
          have hne : (s.1 ++ [Bytes.upperChar c]).isEmpty = false :=
            List.isEmpty_eq_false_iff.mpr
              (List.append_ne_nil_of_right_ne_nil _ (List.cons_ne_nil _ _))
          rw [if_neg (by decide), Bytes.squeeze_char hup, Bool.false_or, hne, List.append_assoc]
          rfl

/-- The key is the text in upper case with its blanks squeezed, up to blanks
and semicolons at the end. -/
theorem squeeze_normalize (query : Bytes) : ∃ w : Bytes, (∀ c ∈ w, c = 59 ∨ c = 32) ∧
    Bytes.squeeze true (Bytes.toUpper query) = LRUCache.normalize query ++ w := by
  have hsemi : ∀ r : Bytes, ∃ w : Bytes, (∀ c ∈ w, c = 59) ∧ r = r.rdropWhile (· = 59) ++ w := by
    intro r
    refine ⟨r.rtakeWhile (· = 59), fun c hc => ?_, ?_⟩
    · simpa using List.mem_rtakeWhile_imp hc
    · rw [List.rdropWhile, List.rtakeWhile, ← List.reverse_append,
        List.takeWhile_append_dropWhile, List.reverse_reverse]
  have hfold : (query.foldl LRUCache.normalizeStep ([], false)).1 =
      Bytes.squeeze true (Bytes.toUpper query) := foldl_normalizeStep query ([], false)
  rw [LRUCache.normalize, hfold]
  generalize Bytes.squeeze true (Bytes.toUpper query) = r
  split
  · next hlast =>
      obtain ⟨w, hw, hr⟩ := hsemi r.dropLast
      refine ⟨w ++ [32], ?_, ?_⟩
      · intro c hc
        rcases List.mem_append.mp hc with hc | hc
        · exact .inl (hw c hc)
        · exact .inr (List.mem_singleton.mp hc)
      · rw [← List.append_assoc, ← hr]
        exact (List.dropLast_append_getLast? 32 hlast).symm
  · obtain ⟨w, hw, hr⟩ := hsemi r
    exact ⟨w, fun c hc => .inl (hw c hc), hr⟩

/-- The token, up to case; a string can have any text. -/
def ReadsAs (t : Token) (p : TokenType × Bytes) : Prop :=
  t.type = p.1 ∧ (t.type ≠ .stringLiteral → Bytes.toUpper t.value = p.2)

/-- The tokens of a text are those of its key and some semicolons. -/
theorem readsAs_key {query : Bytes} (h : (Lexer.new query).tokenizeLoop.2.error = []) :
    ∃ n, List.Forall₂ ReadsAs (Lexer.new query).tokenizeLoop.1
      ((Lexer.new (LRUCache.normalize query)).tokenizeLoop.1.map erase ++
        List.replicate n (.semicolon, [59])) := by
  obtain ⟨w, hw, hkey⟩ := squeeze_normalize query
  have hupper := tokenizeLoop_upper (Lexer.new query)
  have hok : (Lexer.new (Bytes.toUpper query)).tokenizeLoop.2.error = [] := by
    rw [show Lexer.new (Bytes.toUpper query) = upperLexer (Lexer.new query) from rfl, hupper]
    exact h
  have hblanks : (Lexer.new (Bytes.squeeze true (Bytes.toUpper query))).rest.dropWhile
      Bytes.isSpace = Bytes.squeeze false
        ((Lexer.new (Bytes.toUpper query)).rest.dropWhile Bytes.isSpace) :=
    Bytes.dropWhile_squeeze true _
  obtain ⟨htokens, hok'⟩ := respelt_tokenizeLoop hblanks hok rfl
  have hend : (Lexer.new (Bytes.squeeze true (Bytes.toUpper query))).tokenizeLoop.1.map erase =
      (Lexer.new (LRUCache.normalize query)).tokenizeLoop.1.map erase ++ semicolons w :=
    tokenizeLoop_ending hw hkey hok' rfl
  refine ⟨(w.filter (· = 59)).length, ?_⟩
  rw [← List.map_const', ← semicolons, ← hend]
  rw [show Lexer.new (Bytes.toUpper query) = upperLexer (Lexer.new query) from rfl, hupper,
    List.forall₂_map_left_iff] at htokens
  rw [List.forall₂_map_right_iff]
  refine htokens.imp fun t t' ⟨htype, hvalue⟩ => ⟨htype.symm, fun hne => (hvalue hne).symm⟩

/-! ## Two texts side by side -/

/-- A semicolon, or the end of the text. -/
def Ender (t : Token) : Prop :=
  (t.type = .semicolon ∧ Bytes.toUpper t.value = [59]) ∨
    (t.type = .endOfInput ∧ Bytes.toUpper t.value = [])

/-- The same tokens up to case and up to what is quoted, and then semicolons. -/
inductive Abreast : List Token → List Token → Prop where
  | ends {ts us : List Token} : (∀ t ∈ ts, Ender t) → (∀ u ∈ us, Ender u) → Abreast ts us
  | cons {t u : Token} {ts us : List Token} : t.type = u.type →
      (t.type ≠ .stringLiteral → Bytes.toUpper t.value = Bytes.toUpper u.value) →
      Abreast ts us → Abreast (t :: ts) (u :: us)

theorem enders_of_readsAs {ts : List Token} {n : Nat}
    (h : List.Forall₂ ReadsAs ts (List.replicate n (.semicolon, [59]))) : ∀ t ∈ ts, Ender t := by
  intro t ht
  obtain ⟨p, hp, htype, hvalue⟩ := forall₂_mem_right h.flip ht
  obtain rfl := List.eq_of_mem_replicate hp
  exact .inl ⟨htype, hvalue (by rw [htype]; decide)⟩

theorem abreast_of_readsAs {out : List (TokenType × Bytes)} {ts us : List Token} {n m : Nat}
    {t u : Token} (hts : List.Forall₂ ReadsAs ts (out ++ List.replicate n (.semicolon, [59])))
    (hus : List.Forall₂ ReadsAs us (out ++ List.replicate m (.semicolon, [59])))
    (ht : Ender t) (hu : Ender u) : Abreast (ts ++ [t]) (us ++ [u]) := by
  induction out generalizing ts us with
  | nil =>
      refine .ends ?_ ?_
      · exact List.forall_mem_append.mpr ⟨enders_of_readsAs hts, List.forall_mem_singleton.mpr ht⟩
      · exact List.forall_mem_append.mpr ⟨enders_of_readsAs hus, List.forall_mem_singleton.mpr hu⟩
  | cons p out ih =>
      rw [List.cons_append] at hts hus
      obtain ⟨a, ts, ⟨ha, hav⟩, hts', rfl⟩ := List.forall₂_cons_right_iff.mp hts
      obtain ⟨b, us, ⟨hb, hbv⟩, hus', rfl⟩ := List.forall₂_cons_right_iff.mp hus
      refine .cons (ha.trans hb.symm) (fun hne => ?_) (ih hts' hus')
      exact (hav hne).trans (hbv (by rwa [hb, ← ha])).symm

/-- Texts with one key, token by token. -/
theorem abreast_tokenize {q q' : Bytes} (h : (Lexer.tokenize q).2 = [])
    (h' : (Lexer.tokenize q').2 = []) (hkey : LRUCache.normalize q = LRUCache.normalize q') :
    Abreast (Lexer.tokenize q).1 (Lexer.tokenize q').1 := by
  obtain ⟨n, hts⟩ := readsAs_key h
  obtain ⟨m, hus⟩ := readsAs_key h'
  rw [hkey] at hts
  exact abreast_of_readsAs hts hus (.inr ⟨rfl, rfl⟩) (.inr ⟨rfl, rfl⟩)

namespace Abreast

variable {ts us : List Token}

theorem tail (h : Abreast ts us) : Abreast ts.tail us.tail := by
  cases h with
  | ends hts hus =>
      exact .ends (fun t ht => hts t (List.mem_of_mem_tail ht))
        fun u hu => hus u (List.mem_of_mem_tail hu)
  | cons _ _ h => exact h

theorem current (h : Abreast ts us) :
    (Ender (Parser.current ts) ∧ Ender (Parser.current us)) ∨ (kind ts = kind us ∧
      (kind ts ≠ .stringLiteral → Bytes.toUpper (text ts) = Bytes.toUpper (text us))) := by
  have hend : ∀ ts : List Token, (∀ t ∈ ts, Ender t) → Ender (Parser.current ts) := by
    intro ts hts
    cases ts with
    | nil => exact .inr ⟨rfl, rfl⟩
    | cons t ts => exact hts t (by simp)
  cases h with
  | ends hts hus => exact .inl ⟨hend _ hts, hend _ hus⟩
  | cons htype hvalue _ => exact .inr ⟨htype, hvalue⟩

/-- The parser takes the same turn at every token but the end. -/
theorem kind_iff (h : Abreast ts us) {k : TokenType} (hk : k ≠ .semicolon ∧ k ≠ .endOfInput) :
    kind ts = k ↔ kind us = k := by
  have hnot : ∀ ts : List Token, Ender (Parser.current ts) → kind ts ≠ k := by
    rintro ts (⟨ht, -⟩ | ⟨ht, -⟩) rfl
    · exact hk.1 ht
    · exact hk.2 ht
  rcases h.current with ⟨hts, hus⟩ | ⟨htype, -⟩
  · exact iff_of_false (hnot ts hts) (hnot us hus)
  · rw [htype]

/-- A name: what is not quoted is the same, unless one text ends there. -/
theorem name_iff (h : Abreast ts us) : Bytes.toUpper (text ts) = Bytes.toUpper (text us) ↔
    SameName (Parser.current ts) (Parser.current us) := by
  rcases h.current with ⟨hts, hus⟩ | ⟨htype, hvalue⟩
  · rcases hts with ⟨ht, hv⟩ | ⟨ht, hv⟩ <;> rcases hus with ⟨hu, hv'⟩ | ⟨hu, hv'⟩
    all_goals simp [SameName, ht, hu, hv, hv']
  · refine ⟨fun heq => ⟨htype, fun _ => heq⟩, fun ⟨_, hquoted⟩ => ?_⟩
    by_cases hs : kind ts = .stringLiteral
    · exact hquoted hs
    · exact hvalue hs

end Abreast

/-! ## The parser in lockstep -/

/-- The names decide `P`, one by one. -/
structure Decides (P : Prop) (names names' : List Token) : Prop where
  length_eq : names.length = names'.length
  iff : P ↔ List.Forall₂ SameName names names'

theorem forall₂_append_iff {α β : Type} {R : α → β → Prop} {a b : List α} {a' b' : List β}
    (h : a.length = a'.length) :
    List.Forall₂ R (a ++ b) (a' ++ b') ↔ List.Forall₂ R a a' ∧ List.Forall₂ R b b' := by
  refine ⟨fun hall => ?_, fun ⟨ha, hb⟩ => List.rel_append ha hb⟩
  have htake := List.forall₂_take a.length hall
  have hdrop := List.forall₂_drop a.length hall
  rw [List.take_left, h, List.take_left] at htake
  rw [List.drop_left, h, List.drop_left] at hdrop
  exact ⟨htake, hdrop⟩

namespace Decides

variable {P Q : Prop} {a b a' b' : List Token}

theorem append (h : Decides P a a') (h' : Decides Q b b') :
    Decides (P ∧ Q) (a ++ b) (a' ++ b') := by
  refine ⟨?_, ?_⟩
  · rw [List.length_append, List.length_append, h.length_eq, h'.length_eq]
  · rw [forall₂_append_iff h.length_eq, h.iff, h'.iff]

theorem nil (h : P) : Decides P [] [] := ⟨rfl, iff_of_true h .nil⟩

theorem congr (h : Decides P a a') (hpq : Q ↔ P) : Decides Q a a' :=
  ⟨h.length_eq, hpq.trans h.iff⟩

end Decides

/-- A join that was read, or none. -/
theorem parseJoin_cases {ts : List Token} {join : Option JoinClause} {rest : List Token}
    (h : Parser.parseJoin ts = .ok (join, rest)) : (joinNames ts).2 = rest ∧
      join = if kind ts = .kwInner then
        some ⟨text ts.tail.tail, (Parser.columnRef ts.tail.tail.tail.tail).1,
          (Parser.columnRef (Parser.columnRef ts.tail.tail.tail.tail).2.tail).1, .eq⟩
      else none := by
  rw [Parser.parseJoin] at h
  rw [joinNames]
  split at h
  · next hk =>
      rw [if_pos hk, if_pos hk]
      obtain ⟨ts₁, hjoin, h⟩ := Outcome.bind_eq_ok.mp h
      obtain ⟨⟨name, ts₂⟩, hname, h⟩ := Outcome.bind_eq_ok.mp h
      obtain ⟨ts₃, hon, h⟩ := Outcome.bind_eq_ok.mp h
      obtain ⟨-, rfl⟩ := Parser.expect_ok hjoin
      obtain ⟨-, rfl, rfl⟩ := Parser.identifier_ok hname
      obtain ⟨-, rfl⟩ := Parser.expect_ok hon
      dsimp only at h
      split at h
      · exact absurd h (by simp [Parser.fail])
      · obtain ⟨rfl, rfl⟩ := Prod.mk.inj (Except.ok.inj h)
        exact ⟨rfl, rfl⟩
  · next hk =>
      rw [if_neg hk, if_neg hk]
      obtain ⟨rfl, rfl⟩ := Prod.mk.inj (Except.ok.inj h)
      exact ⟨rfl, rfl⟩

namespace Abreast

variable {ts us : List Token}

theorem name (h : Abreast ts us) : Decides (Bytes.toUpper (text ts) = Bytes.toUpper (text us))
    [Parser.current ts] [Parser.current us] :=
  ⟨rfl, h.name_iff.trans (by simp)⟩

theorem columnRef (h : Abreast ts us) :
    Abreast (Parser.columnRef ts).2 (Parser.columnRef us).2 ∧
      Decides (upperRef (Parser.columnRef ts).1 = upperRef (Parser.columnRef us).1)
        (refNames ts) (refNames us) := by
  have hdot := h.tail.kind_iff (k := .dot) (by decide)
  simp only [Parser.columnRef, refNames]
  by_cases hk : kind ts.tail = .dot
  · rw [if_pos hk, if_pos (hdot.mp hk), if_pos hk, if_pos (hdot.mp hk)]
    refine ⟨h.tail.tail.tail, (h.name.append h.tail.tail.name).congr ?_⟩
    simp only [upperRef, ColumnRef.mk.injEq]
  · have hk' := fun hu => hk (hdot.mpr hu)
    rw [if_neg hk, if_neg hk', if_neg hk, if_neg hk']
    refine ⟨h.tail, h.name.congr ?_⟩
    simp only [upperRef, ColumnRef.mk.injEq, true_and]

theorem columnRefs (h : Abreast ts us) {refs refs' : List ColumnRef} {rest rest' : List Token}
    (hts : Parser.columnRefs ts = .ok (refs, rest))
    (hus : Parser.columnRefs us = .ok (refs', rest')) :
    (listNames ts).2 = rest ∧ (listNames us).2 = rest' ∧ Abreast rest rest' ∧
      Decides (refs.map upperRef = refs'.map upperRef) (listNames ts).1 (listNames us).1 := by
  induction hlen : ts.length using Nat.strongRecOn generalizing ts us refs refs' rest rest' with
  | ind len ih =>
      subst hlen
      obtain ⟨habreast, href⟩ := h.columnRef
      have hcomma := habreast.kind_iff (k := .comma) (by decide)
      rw [Parser.columnRefs] at hts hus
      rw [listNames.eq_def ts, listNames.eq_def us]
      split at hts
      · next hk =>
          split at hus
          · next hk' =>
              rw [dif_pos hk, dif_pos hk']
              split at hts
              · next hc =>
                  rw [if_pos (hcomma.mp hc)] at hus
                  rw [if_pos hc, if_pos (hcomma.mp hc)]
                  obtain ⟨⟨more, r⟩, hmore, hok⟩ := Outcome.bind_eq_ok.mp hts
                  obtain ⟨⟨more', r'⟩, hmore', hok'⟩ := Outcome.bind_eq_ok.mp hus
                  obtain ⟨rfl, rfl⟩ := Prod.mk.inj (Except.ok.inj hok)
                  obtain ⟨rfl, rfl⟩ := Prod.mk.inj (Except.ok.inj hok')
                  have hlt : (Parser.columnRef ts).2.tail.length < ts.length := by
                    have hle := Parser.columnRef_le ts
                    have hlt : ts.tail.length < ts.length := Parser.tail_lt (by rw [hk]; decide)
                    rw [List.length_tail]
                    omega
                  obtain ⟨hr, hr', hrest, hnames⟩ := ih _ hlt habreast.tail hmore hmore' rfl
                  refine ⟨hr, hr', hrest, (href.append hnames).congr ?_⟩
                  rw [List.map_cons, List.map_cons, List.cons.injEq]
              · next hc =>
                  have hc' := fun hu => hc (hcomma.mpr hu)
                  rw [if_neg hc'] at hus
                  rw [if_neg hc, if_neg hc']
                  obtain ⟨rfl, rfl⟩ := Prod.mk.inj (Except.ok.inj hts)
                  obtain ⟨rfl, rfl⟩ := Prod.mk.inj (Except.ok.inj hus)
                  refine ⟨rfl, rfl, habreast, href.congr ?_⟩
                  simp
          · exact absurd hus (by simp [Parser.fail])
      · exact absurd hts (by simp [Parser.fail])

theorem joinNames (h : Abreast ts us) {join join' : Option JoinClause} {rest rest' : List Token}
    (hts : Parser.parseJoin ts = .ok (join, rest))
    (hus : Parser.parseJoin us = .ok (join', rest')) :
    Abreast (joinNames ts).2 (joinNames us).2 ∧
      Decides (join.map upperJoin = join'.map upperJoin) (joinNames ts).1 (joinNames us).1 := by
  obtain ⟨-, hjoin⟩ := parseJoin_cases hts
  obtain ⟨-, hjoin'⟩ := parseJoin_cases hus
  rw [Spec.joinNames, Spec.joinNames, hjoin, hjoin']
  have hinner := h.kind_iff (k := .kwInner) (by decide)
  by_cases hk : kind ts = .kwInner
  · rw [if_pos hk, if_pos (hinner.mp hk), if_pos hk, if_pos (hinner.mp hk)]
    obtain ⟨hleft, hleftNames⟩ := h.tail.tail.tail.tail.columnRef
    obtain ⟨hright, hrightNames⟩ := hleft.tail.columnRef
    refine ⟨hright, (h.tail.tail.name.append (hleftNames.append hrightNames)).congr ?_⟩
    simp only [Option.map_some, Option.some.injEq, upperJoin, JoinClause.mk.injEq, and_true]
  · have hk' := fun hu => hk (hinner.mpr hu)
    rw [if_neg hk, if_neg hk', if_neg hk, if_neg hk']
    exact ⟨h, .nil rfl⟩

theorem cmpOp (h : Abreast ts us) : (Parser.cmpOp ts).1 = (Parser.cmpOp us).1 := by
  have hend : ∀ ts : List Token, Ender (Parser.current ts) → cmpOpOf (kind ts) = none := by
    rintro ts (⟨ht, -⟩ | ⟨ht, -⟩)
    · rw [kind, ht]; rfl
    · rw [kind, ht]; rfl
  have hop : cmpOpOf (kind ts) = cmpOpOf (kind us) := by
    rcases h.current with ⟨hts, hus⟩ | ⟨htype, -⟩
    · rw [hend ts hts, hend us hus]
    · rw [htype]
  rw [cmpOp_eq, cmpOp_eq, hop]
  cases cmpOpOf (kind us) <;> rfl

/-- The `WHERE` without its literal. -/
theorem whereNames (h : Abreast ts us) :
    Decides (((optionalWhere ts).1.map fun w => (upperRef w.column, w.op)) =
      (optionalWhere us).1.map fun w => (upperRef w.column, w.op))
      (whereNames ts) (whereNames us) := by
  rw [optionalWhere, optionalWhere, Spec.whereNames, Spec.whereNames]
  have hwhere := h.kind_iff (k := .kwWhere) (by decide)
  by_cases hk : kind ts = .kwWhere
  · rw [if_pos hk, if_pos (hwhere.mp hk), if_pos hk, if_pos (hwhere.mp hk)]
    obtain ⟨hrest, hnames⟩ := h.tail.columnRef
    refine hnames.congr ?_
    simp only [Option.map_some, Option.some.injEq, Prod.mk.injEq]
    exact and_iff_left hrest.cmpOp
  · have hk' := fun hu => hk (hwhere.mpr hu)
    rw [if_neg hk, if_neg hk', if_neg hk, if_neg hk']
    exact .nil rfl

theorem columnNames (h : Abreast ts us) {all all' : Bool} {cols cols' : List ColumnRef}
    {rest rest' : List Token} (hts : Parser.selectList ts = .ok ((all, cols), rest))
    (hus : Parser.selectList us = .ok ((all', cols'), rest')) :
    all = all' ∧ (columnNames ts).2 = rest ∧ (columnNames us).2 = rest' ∧ Abreast rest rest' ∧
      Decides (cols.map upperRef = cols'.map upperRef) (columnNames ts).1 (columnNames us).1 := by
  rw [Parser.selectList] at hts hus
  rw [Spec.columnNames, Spec.columnNames]
  have hstar := h.kind_iff (k := .star) (by decide)
  by_cases hk : kind ts = .star
  · rw [if_pos hk] at hts
    rw [if_pos (hstar.mp hk)] at hus
    rw [if_pos hk, if_pos (hstar.mp hk)]
    obtain ⟨hfirst, rfl⟩ := Prod.mk.inj (Except.ok.inj hts)
    obtain ⟨hfirst', rfl⟩ := Prod.mk.inj (Except.ok.inj hus)
    obtain ⟨rfl, rfl⟩ := Prod.mk.inj hfirst
    obtain ⟨rfl, rfl⟩ := Prod.mk.inj hfirst'
    exact ⟨rfl, rfl, rfl, h.tail, .nil rfl⟩
  · have hk' := fun hu => hk (hstar.mpr hu)
    rw [if_neg hk] at hts
    rw [if_neg hk'] at hus
    rw [if_neg hk, if_neg hk']
    obtain ⟨⟨refs, r⟩, hrefs, hok⟩ := Outcome.bind_eq_ok.mp hts
    obtain ⟨⟨refs', r'⟩, hrefs', hok'⟩ := Outcome.bind_eq_ok.mp hus
    obtain ⟨hfirst, rfl⟩ := Prod.mk.inj (Except.ok.inj hok)
    obtain ⟨hfirst', rfl⟩ := Prod.mk.inj (Except.ok.inj hok')
    obtain ⟨rfl, rfl⟩ := Prod.mk.inj hfirst
    obtain ⟨rfl, rfl⟩ := Prod.mk.inj hfirst'
    exact ⟨rfl, h.columnRefs hrefs hrefs'⟩

end Abreast

theorem whereLiteral_eq (ts : List Token) :
    (optionalWhere ts).1.map (·.literal) = (whereLiteral ts).map (·.value) := by
  rw [optionalWhere, whereLiteral]
  split <;> rfl

/-- Two `WHERE`s are the same when column, operator and literal are. -/
theorem upperWhere_iff (w w' : Option WhereClause) :
    ((w.map fun w => { w with column := upperRef w.column }) =
        w'.map fun w => { w with column := upperRef w.column }) ↔
      ((w.map fun w => (upperRef w.column, w.op)) = w'.map fun w => (upperRef w.column, w.op)) ∧
        w.map (·.literal) = w'.map (·.literal) := by
  rcases w with _ | ⟨c, op, lit⟩ <;> rcases w' with _ | ⟨c', op', lit'⟩
  all_goals simp [and_assoc]

theorem parseSelect_cases {ts rest : List Token} {s : SelectStmt}
    (h : Parser.parseSelect ts = .ok (.select s, rest)) : ∃ cols all ts₁ join ts₂,
      Parser.selectList ts.tail = .ok ((all, cols), ts₁) ∧
        Parser.parseJoin ts₁.tail.tail = .ok (join, ts₂) ∧
        s = ⟨text ts₁.tail, cols, all, (optionalWhere ts₂).1, join⟩ := by
  rw [parseSelect_eq] at h
  obtain ⟨⟨⟨all, cols⟩, ts₁⟩, hlist, hk₁⟩ := Outcome.bind_eq_ok.mp h
  obtain ⟨ts₂, hfrom, hk₂⟩ := Outcome.bind_eq_ok.mp hk₁
  obtain ⟨⟨name, ts₃⟩, hname, hk₃⟩ := Outcome.bind_eq_ok.mp hk₂
  obtain ⟨⟨join, ts₄⟩, hjoin, hk₄⟩ := Outcome.bind_eq_ok.mp hk₃
  obtain ⟨-, rfl⟩ := Parser.expect_ok hfrom
  obtain ⟨-, rfl, rfl⟩ := Parser.identifier_ok hname
  obtain ⟨hstmt, -⟩ := Prod.mk.inj (Except.ok.inj hk₄)
  exact ⟨cols, all, ts₁, join, ts₄, hlist, hjoin, (Statement.select.inj hstmt).symm⟩

/-- Queries read in lockstep are the same up to case when their words are. -/
theorem upperSelect_iff {ts us rest rest' : List Token} {s s' : SelectStmt} (h : Abreast ts us)
    (hts : Parser.parseSelect ts = .ok (.select s, rest))
    (hus : Parser.parseSelect us = .ok (.select s', rest')) :
    upperSelect s = upperSelect s' ↔ SameWords (selectWords ts) (selectWords us) := by
  obtain ⟨cols, all, ts₁, join, ts₂, hlist, hjoin, rfl⟩ := parseSelect_cases hts
  obtain ⟨cols', all', us₁, join', us₂, hlist', hjoin', rfl⟩ := parseSelect_cases hus
  obtain ⟨rfl, rfl, rfl, hrest, hcols⟩ := h.tail.columnNames hlist hlist'
  obtain ⟨hend, hnames⟩ := hrest.tail.tail.joinNames hjoin hjoin'
  obtain rfl := (parseJoin_cases hjoin).1
  obtain rfl := (parseJoin_cases hjoin').1
  have hall := hcols.append (hrest.tail.name.append (hnames.append hend.whereNames))
  rw [SameWords, selectWords, selectWords]
  refine Iff.trans ?_ (and_congr hall.iff Iff.rfl)
  simp only [upperSelect_eq, SelectStmt.mk.injEq, true_and, upperWhere_iff, whereLiteral_eq]
  tauto

theorem parseSql_tokens {sql : Bytes} {s : SelectStmt}
    (h : parseSql sql = .ok (.ok (.select s))) : (Lexer.tokenize sql).2 = [] ∧
      ∃ rest, Parser.parseSelect (Lexer.tokenize sql).1 = .ok (.select s, rest) := by
  obtain ⟨rest, hparse⟩ := parseSql_ok h
  have hselect : (Parser.current (Lexer.tokenize sql).1).type = .kwSelect := parse_head hparse
  refine ⟨?_, rest, ?_⟩
  · rw [parseSql] at h
    dsimp only at h
    split at h
    · exact absurd h (by simp)
    · next hclean => simpa using hclean
  · rwa [Parser.parse, hselect] at hparse

/-- Queries with one key are one query, with one answer on every state, when
the same tokens are taken for their names and the literals are the same. -/
theorem normalize_identifies_iff [FloatLib] {q q' : Bytes} {s s' : SelectStmt}
    (h : parseSql q = .ok (.ok (.select s))) (h' : parseSql q' = .ok (.ok (.select s')))
    (hkey : LRUCache.normalize q = LRUCache.normalize q') :
    (upperSelect s = upperSelect s' ∧ ∀ (tables : Finmap fun _ : Bytes => Table) (now : Int64),
      Executor.selectRows tables now s = Executor.selectRows tables now s') ↔
    SameWords (selectWords (Lexer.tokenize q).1) (selectWords (Lexer.tokenize q').1) := by
  obtain ⟨hclean, rest, hparse⟩ := parseSql_tokens h
  obtain ⟨hclean', rest', hparse'⟩ := parseSql_tokens h'
  rw [← upperSelect_iff (abreast_tokenize hclean hclean' hkey) hparse hparse']
  refine ⟨fun hsame => hsame.1, fun hsame => ⟨hsame, fun tables now => ?_⟩⟩
  rw [← selectRows_upper, hsame, selectRows_upper]

section Runs

attribute [local instance] noDoubles

/-- Other blanks, other case, and a semicolon. -/
theorem normalize_identifies_respelled : ∃ s s' : SelectStmt,
    parseSql (Bytes.lit "select  id from T where id=1;") = .ok (.ok (.select s)) ∧
    parseSql (Bytes.lit "SELECT id FROM t WHERE ID=1 ") = .ok (.ok (.select s')) ∧ s ≠ s' ∧
    ∀ (tables : Finmap fun _ : Bytes => Table) (now : Int64),
      Executor.selectRows tables now s = Executor.selectRows tables now s' := by
  have h : parseSql (Bytes.lit "select  id from T where id=1;") = .ok (.ok (.select
      ⟨Bytes.lit "T", [⟨[], Bytes.lit "id"⟩], false,
        some ⟨⟨[], Bytes.lit "id"⟩, .eq, Bytes.lit "1"⟩, none⟩)) := by
    decide +kernel
  have h' : parseSql (Bytes.lit "SELECT id FROM t WHERE ID=1 ") = .ok (.ok (.select
      ⟨Bytes.lit "t", [⟨[], Bytes.lit "id"⟩], false,
        some ⟨⟨[], Bytes.lit "ID"⟩, .eq, Bytes.lit "1"⟩, none⟩)) := by
    decide +kernel
  have hwords : SameWords
      (selectWords (Lexer.tokenize (Bytes.lit "select  id from T where id=1;")).1)
      (selectWords (Lexer.tokenize (Bytes.lit "SELECT id FROM t WHERE ID=1 ")).1) := by
    decide +kernel
  exact ⟨_, _, h, h', by decide,
    ((normalize_identifies_iff h h' (by decide +kernel)).mpr hwords).2⟩

/-- Literals that differ in case have one key, and another row each. -/
theorem normalize_merges_literals : ∃ s s' x r r',
    parseSql (Bytes.lit "SELECT * FROM t WHERE n = 'a'") = .ok (.ok (.select s)) ∧
    parseSql (Bytes.lit "SELECT * FROM t WHERE n = 'A'") = .ok (.ok (.select s')) ∧
    LRUCache.normalize (Bytes.lit "SELECT * FROM t WHERE n = 'a'") =
      LRUCache.normalize (Bytes.lit "SELECT * FROM t WHERE n = 'A'") ∧
    upperSelect s ≠ upperSelect s' ∧
    Actions.runAll (fun ex sql => ex.executeSql 0 sql) Executor.new
      [Bytes.lit "CREATE TABLE t (n VARCHAR)", Bytes.lit "INSERT INTO t VALUES ('a')"] = .ok x ∧
    Executor.selectRows x.1.tables 0 s = .ok (.ok r) ∧ r.rows = [[.varchar (Bytes.lit "a")]] ∧
    Executor.selectRows x.1.tables 0 s' = .ok (.ok r') ∧ r'.rows = [] := by
  have hrun : (do
      let x ← Actions.runAll (fun ex sql => ex.executeSql 0 sql) Executor.new
        [Bytes.lit "CREATE TABLE t (n VARCHAR)", Bytes.lit "INSERT INTO t VALUES ('a')"]
      let r ← Executor.selectRows x.1.tables 0 ⟨Bytes.lit "t", [], true,
        some ⟨⟨[], Bytes.lit "n"⟩, .eq, Bytes.lit "a"⟩, none⟩
      let r' ← Executor.selectRows x.1.tables 0 ⟨Bytes.lit "t", [], true,
        some ⟨⟨[], Bytes.lit "n"⟩, .eq, Bytes.lit "A"⟩, none⟩
      .ok (r, r') : Outcome _) =
        .ok (.ok ⟨[Bytes.lit "N"], [[.varchar (Bytes.lit "a")]]⟩, .ok ⟨[Bytes.lit "N"], []⟩) := by
    decide +kernel
  obtain ⟨x, hx, hrun⟩ := Outcome.bind_eq_ok.mp hrun
  obtain ⟨r, hr, hrun⟩ := Outcome.bind_eq_ok.mp hrun
  obtain ⟨r', hr', hrun⟩ := Outcome.bind_eq_ok.mp hrun
  obtain ⟨rfl, rfl⟩ := Prod.mk.inj (Except.ok.inj hrun)
  exact ⟨_, _, x, _, _, by decide +kernel, by decide +kernel, by decide +kernel, by decide, hx, hr,
    rfl, hr', rfl⟩

end Runs

end FlexQL.Proofs
