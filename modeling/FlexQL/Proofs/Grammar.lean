import FlexQL.Proofs.Statements
import FlexQL.Spec.Grammar

/-!
# What the parser reads

The parser reads exactly the lax grammar, and of each statement as much as
there is. For every function of the parser there is a lemma that says so; the
loops go by induction on their own recursion in one direction and on the
derivation in the other.
-/

namespace FlexQL.Proofs

open Lib FlexQL.Ref FlexQL.Spec FlexQL.Spec.Grammar

variable {ts ts' rest : List Token}

/-! ## The documented grammar is part of the lax one -/

section Lax

variable {g : Strength}

theorem name_lax (k : TokenType) : Name .lax k := .inr rfl

theorem operand_lax (k : TokenType) : Operand .lax k := .inr rfl

theorem element_lax {k : TokenType} (h : Element g k) : Element .lax k :=
  h.imp_right fun h => ⟨rfl, h.2⟩

theorem colDefs_lax {cs : List AstColumnDef} (h : ColDefs g ts cs rest) :
    ColDefs .lax ts cs rest := by
  induction h with
  | none _ hk => exact .none rfl hk
  | last hc hk => exact .last hc hk
  | more hc hk _ ih => exact .more hc hk ih

theorem elements_lax {vs : List Bytes} (h : Elements g ts vs rest) : Elements .lax ts vs rest := by
  induction h with
  | none _ hk => exact .none rfl hk
  | last he hk => exact .last (element_lax he) hk
  | more he hk _ ih => exact .more (element_lax he) hk ih

theorem tuples_lax {rows : List (List Bytes)} (h : Tuples g ts rows rest) :
    Tuples .lax ts rows rest := by
  induction h with
  | last hk hv => exact .last hk (elements_lax hv)
  | more hk hv hc _ ih => exact .more hk (elements_lax hv) hc ih

theorem colRef_lax {c : ColumnRef} (h : ColRef g ts c rest) : ColRef .lax ts c rest := by
  cases h with
  | bare _ hk => exact .bare (name_lax _) hk
  | qualified _ hk h _ => exact .qualified (name_lax _) hk h (name_lax _)

theorem colRefs_lax {cs : List ColumnRef} (h : ColRefs g ts cs rest) : ColRefs .lax ts cs rest := by
  induction h with
  | last hk hc => exact .last hk (colRef_lax hc)
  | more hk hc hcomma _ ih => exact .more hk (colRef_lax hc) hcomma ih

theorem selectList_lax {all : Bool} {cs : List ColumnRef} (h : SelectList g ts all cs rest) :
    SelectList .lax ts all cs rest := by
  cases h with
  | star hk => exact .star hk
  | refs h => exact .refs (colRefs_lax h)

theorem join_lax {j : Option JoinClause} (h : Join g ts j rest) : Join .lax ts j rest := by
  cases h with
  | none => exact .none
  | inner hi hj hname hid hon hk hleft hc hop hd =>
      exact .inner hi hj hname hid hon hk hleft (colRef_lax hc) hop (colRef_lax hd)

theorem where_lax {w : Option WhereClause} (h : Where g ts w rest) : Where .lax ts w rest := by
  cases h with
  | none => exact .none
  | cmp hk hc hop _ => exact .cmp hk (colRef_lax hc) hop (operand_lax _)
  | bare _ hk hc hop => exact .bare rfl hk (colRef_lax hc) hop

theorem stmt_lax {stmt : Statement} (h : Stmt g ts stmt rest) : Stmt .lax ts stmt rest := by
  cases h with
  | create hk ht hname hid hp hc => exact .create hk ht hname hid hp (colDefs_lax hc)
  | insert hk ht hname hid hp hr => exact .insert hk ht hname hid hp (tuples_lax hr)
  | select hk hl hf hid hj hw =>
      exact .select hk (selectList_lax hl) hf hid (join_lax hj) (where_lax hw)

end Lax

/-! ## Where a derivation ends -/

section Suffix

variable {g : Strength}

theorem tail_suffix (h : ts' <:+ ts) : ts'.tail <:+ ts := (List.tail_suffix _).trans h

theorem suffix_tail (h : ts' <:+ ts.tail) : ts' <:+ ts := h.trans (List.tail_suffix _)

theorem typeName_suffix {name : Bytes} {len : UInt16} (h : Grammar.TypeName ts name len rest) :
    rest <:+ ts := by
  cases h with
  | varcharOf _ _ h _ _ _ =>
      subst h
      exact tail_suffix (tail_suffix (tail_suffix (List.tail_suffix _)))
  | _ => exact List.tail_suffix _

theorem colDefs_suffix {cs : List AstColumnDef} (h : ColDefs g ts cs rest) : rest <:+ ts := by
  induction h with
  | none => exact List.tail_suffix _
  | last hc _ => exact tail_suffix (suffix_tail (typeName_suffix hc.type))
  | more hc _ _ ih => exact (suffix_tail ih).trans (suffix_tail (typeName_suffix hc.type))

theorem elements_suffix {vs : List Bytes} (h : Elements g ts vs rest) : rest <:+ ts := by
  induction h with
  | none => exact List.tail_suffix _
  | last => exact tail_suffix (List.tail_suffix _)
  | more _ _ _ ih => exact suffix_tail (suffix_tail ih)

theorem tuples_suffix {rows : List (List Bytes)} (h : Tuples g ts rows rest) : rest <:+ ts := by
  induction h with
  | last _ hv => exact suffix_tail (elements_suffix hv)
  | more _ hv _ _ ih => exact (suffix_tail ih).trans (suffix_tail (elements_suffix hv))

theorem colRef_suffix {c : ColumnRef} (h : ColRef g ts c rest) : rest <:+ ts := by
  cases h with
  | bare => exact List.tail_suffix _
  | qualified _ _ h _ =>
      subst h
      exact tail_suffix (tail_suffix (List.tail_suffix _))

theorem selectList_suffix {all : Bool} {cs : List ColumnRef} (h : SelectList g ts all cs rest) :
    rest <:+ ts := by
  cases h with
  | star => exact List.tail_suffix _
  | refs h =>
      induction h with
      | last _ hc => exact colRef_suffix hc
      | more _ hc _ _ ih => exact (suffix_tail ih).trans (colRef_suffix hc)

theorem join_suffix {j : Option JoinClause} (h : Join g ts j rest) : rest <:+ ts := by
  cases h with
  | none => exact List.suffix_refl _
  | inner _ _ hname _ hon _ hleft hc _ hd =>
      subst hname hon hleft
      exact suffix_tail (suffix_tail (suffix_tail (suffix_tail
        ((suffix_tail (colRef_suffix hd)).trans (colRef_suffix hc)))))

theorem where_suffix {w : Option WhereClause} (h : Where g ts w rest) : rest <:+ ts := by
  cases h with
  | none => exact List.suffix_refl _
  | cmp _ hc _ _ => exact tail_suffix (tail_suffix (suffix_tail (colRef_suffix hc)))
  | bare _ _ hc _ => exact tail_suffix (suffix_tail (colRef_suffix hc))

theorem stmt_suffix {stmt : Statement} (h : Stmt g ts stmt rest) : rest <:+ ts := by
  cases h with
  | create _ _ hname _ _ hc =>
      subst hname
      exact suffix_tail (suffix_tail (suffix_tail (suffix_tail (colDefs_suffix hc))))
  | insert _ _ hname _ _ hr =>
      subst hname
      exact suffix_tail (suffix_tail (suffix_tail (suffix_tail (tuples_suffix hr))))
  | select _ hl _ _ hj hw =>
      exact (where_suffix hw).trans (suffix_tail ((suffix_tail (suffix_tail (join_suffix hj))).trans
        (selectList_suffix hl)))

/-- The last token taken is no semicolon. -/
def EndsBefore (ts rest : List Token) : Prop := ∃ t, t.type ≠ .semicolon ∧ (t :: rest) <:+ ts

theorem EndsBefore.of_suffix (h : EndsBefore ts' rest) (hs : ts' <:+ ts) : EndsBefore ts rest := by
  obtain ⟨t, ht, hsuffix⟩ := h
  exact ⟨t, ht, hsuffix.trans hs⟩

theorem ends_tail {k : TokenType} (h : kind ts = k) (hend : k ≠ .endOfInput)
    (hsemi : k ≠ .semicolon) : EndsBefore ts ts.tail := by
  cases ts with
  | nil => exact absurd h.symm hend
  | cons t ts => exact ⟨t, fun ht => hsemi (h.symm.trans ht), List.suffix_refl _⟩

theorem colDefs_ends {cs : List AstColumnDef} (h : ColDefs g ts cs rest) : EndsBefore ts rest := by
  induction h with
  | none _ hk => exact ends_tail hk (by decide) (by decide)
  | last hc hk =>
      exact (ends_tail hk (by decide) (by decide)).of_suffix (suffix_tail (typeName_suffix hc.type))
  | more hc _ _ ih =>
      exact ih.of_suffix (tail_suffix (suffix_tail (typeName_suffix hc.type)))

theorem elements_ends {vs : List Bytes} (h : Elements g ts vs rest) : EndsBefore ts rest := by
  induction h with
  | none _ hk => exact ends_tail hk (by decide) (by decide)
  | last _ hk => exact (ends_tail hk (by decide) (by decide)).of_suffix (List.tail_suffix _)
  | more _ _ _ ih => exact ih.of_suffix (tail_suffix (List.tail_suffix _))

theorem tuples_ends {rows : List (List Bytes)} (h : Tuples g ts rows rest) :
    EndsBefore ts rest := by
  induction h with
  | last _ hv => exact (elements_ends hv).of_suffix (List.tail_suffix _)
  | more _ hv _ _ ih => exact ih.of_suffix (tail_suffix (suffix_tail (elements_suffix hv)))

theorem name_documented {k : TokenType} (h : Name .documented k) : k = .identifier :=
  h.resolve_right nofun

theorem colRef_ends {c : ColumnRef} (h : ColRef .documented ts c rest) : EndsBefore ts rest := by
  cases h with
  | bare hn _ => exact ends_tail (name_documented hn) (by decide) (by decide)
  | qualified _ _ h hn =>
      subst h
      exact (ends_tail (name_documented hn) (by decide) (by decide)).of_suffix
        (tail_suffix (List.tail_suffix _))

theorem operand_ends (h : Operand .documented (kind ts)) : EndsBefore ts ts.tail := by
  rcases h.resolve_right nofun with hk | hk | hk
  · exact ends_tail hk (by decide) (by decide)
  · exact ends_tail hk (by decide) (by decide)
  · exact ends_tail hk (by decide) (by decide)

theorem stmt_ends {stmt : Statement} (h : Stmt .documented ts stmt rest) : EndsBefore ts rest := by
  cases h with
  | create _ _ hname _ _ hc =>
      subst hname
      exact (colDefs_ends hc).of_suffix
        (tail_suffix (tail_suffix (tail_suffix (List.tail_suffix _))))
  | insert _ _ hname _ _ hr =>
      subst hname
      exact (tuples_ends hr).of_suffix
        (tail_suffix (tail_suffix (tail_suffix (List.tail_suffix _))))
  | @select ts₁ ts₂ _ _ _ _ _ _ hl _ hid hj hw =>
      have hlist : ts₁.tail <:+ ts := tail_suffix (suffix_tail (selectList_suffix hl))
      have hjoin : ts₂ <:+ ts := (join_suffix hj).trans (tail_suffix hlist)
      cases hw with
      | cmp _ hc _ ho =>
          exact (operand_ends ho).of_suffix
            ((tail_suffix (suffix_tail (colRef_suffix hc))).trans hjoin)
      | bare h => exact absurd h nofun
      | none =>
          cases hj with
          | none => exact (ends_tail hid (by decide) (by decide)).of_suffix hlist
          | inner _ _ hname _ hon _ hleft hc _ hd =>
              subst hname hon hleft
              refine (colRef_ends hd).of_suffix ?_
              exact (tail_suffix (colRef_suffix hc)).trans (tail_suffix (tail_suffix (tail_suffix
                (tail_suffix (tail_suffix hlist)))))

end Suffix

/-! ## The pieces -/

theorem expect_iff {type : TokenType} {context : Bytes} :
    Parser.expect type context ts = .ok rest ↔ kind ts = type ∧ rest = ts.tail := by
  refine ⟨Parser.expect_ok, ?_⟩
  rintro ⟨hk, rfl⟩
  exact if_pos hk

theorem identifier_iff {text name : Bytes} :
    Parser.identifier text ts = .ok (name, rest) ↔
      kind ts = .identifier ∧ name = Grammar.text ts ∧ rest = ts.tail := by
  refine ⟨Parser.identifier_ok, ?_⟩
  rintro ⟨hk, rfl, rfl⟩
  exact if_pos hk

theorem columnRef_iff {c : ColumnRef} :
    Parser.columnRef ts = (c, rest) ↔ ColRef .lax ts c rest := by
  rw [Parser.columnRef]
  constructor
  · intro h
    split at h
    · next hdot =>
        obtain ⟨rfl, rfl⟩ := Prod.mk.inj h
        exact .qualified (name_lax _) hdot rfl (name_lax _)
    · next hdot =>
        obtain ⟨rfl, rfl⟩ := Prod.mk.inj h
        exact .bare (name_lax _) hdot
  · intro h
    cases h with
    | bare _ hdot => exact if_neg hdot
    | qualified _ hdot h _ =>
        subst h
        exact if_pos hdot

theorem cmpOp_eq (ts : List Token) : Parser.cmpOp ts = match cmpOpOf (kind ts) with
    | some op => (op, ts.tail)
    | none => (.eq, ts) := by
  rw [Parser.cmpOp, kind]
  cases (Parser.current ts).type <;> rfl

theorem parseWhere_eq {c : ColumnRef} (h : Parser.columnRef ts = (c, ts')) :
    Parser.parseWhere ts = match cmpOpOf (kind ts') with
      | some op => (⟨c, op, text ts'.tail⟩, ts'.tail.tail)
      | none => (⟨c, .eq, text ts'⟩, ts'.tail) := by
  simp only [Parser.parseWhere, h, cmpOp_eq]
  cases cmpOpOf (kind ts') <;> rfl

/-- The optional `WHERE` of `parse_select`. -/
def optionalWhere (ts : List Token) : Option WhereClause × List Token :=
  if kind ts = .kwWhere then
    (some (Parser.parseWhere ts.tail).1, (Parser.parseWhere ts.tail).2)
  else (none, ts)

theorem where_iff {w : Option WhereClause} : optionalWhere ts = (w, rest) ↔
    Where .lax ts w rest ∧ (w = none → kind ts ≠ .kwWhere) := by
  rw [optionalWhere]
  constructor
  · intro h
    split at h
    · next hk =>
        obtain ⟨c, ts₁, hc⟩ : ∃ c ts₁, Parser.columnRef ts.tail = (c, ts₁) := ⟨_, _, rfl⟩
        rw [parseWhere_eq hc] at h
        cases hop : cmpOpOf (kind ts₁) with
        | some op =>
            rw [hop] at h
            obtain ⟨rfl, rfl⟩ := Prod.mk.inj h
            exact ⟨.cmp hk (columnRef_iff.mp hc) hop (operand_lax _), nofun⟩
        | none =>
            rw [hop] at h
            obtain ⟨rfl, rfl⟩ := Prod.mk.inj h
            exact ⟨.bare rfl hk (columnRef_iff.mp hc) hop, nofun⟩
    · next hk =>
        obtain ⟨rfl, rfl⟩ := Prod.mk.inj h
        exact ⟨.none, fun _ => hk⟩
  · rintro ⟨h, hnone⟩
    cases h with
    | none => exact if_neg (hnone rfl)
    | cmp hk hc hop _ => rw [if_pos hk, parseWhere_eq (columnRef_iff.mpr hc), hop]
    | bare _ hk hc hop => rw [if_pos hk, parseWhere_eq (columnRef_iff.mpr hc), hop]

theorem columnRefs_iff {cs : List ColumnRef} : Parser.columnRefs ts = .ok (cs, rest) ↔
    ColRefs .lax ts cs rest ∧ kind rest ≠ .comma := by
  constructor
  · intro h
    induction hlen : ts.length using Nat.strongRecOn generalizing ts cs with
    | ind len ih =>
        subst hlen
        have href : ColRef .lax ts (Parser.columnRef ts).1 (Parser.columnRef ts).2 :=
          columnRef_iff.mp (Prod.eta _).symm
        rw [Parser.columnRefs] at h
        split at h
        · next hk =>
            split at h
            · next hcomma =>
                obtain ⟨⟨cs', ts'⟩, hrec, h⟩ := Outcome.bind_eq_ok.mp h
                obtain ⟨rfl, rfl⟩ := Prod.mk.inj (Except.ok.inj h)
                have hlt : ts.tail.length < ts.length := Parser.tail_lt (by rw [hk]; decide)
                have hle := Parser.columnRef_le ts
                have hlen : (Parser.columnRef ts).2.tail.length < ts.length := by
                  rw [List.length_tail]
                  omega
                have hcs := ih _ hlen hrec rfl
                exact ⟨.more hk href hcomma hcs.1, hcs.2⟩
            · next hcomma =>
                obtain ⟨rfl, rfl⟩ := Prod.mk.inj (Except.ok.inj h)
                exact ⟨.last hk href, hcomma⟩
        · exact absurd h (by simp [Parser.fail])
  · rintro ⟨h, hend⟩
    induction h with
    | last hk hc =>
        rw [Parser.columnRefs, dif_pos hk]
        simp only [columnRef_iff.mpr hc]
        exact if_neg hend
    | more hk hc hcomma _ ih =>
        rw [Parser.columnRefs, dif_pos hk]
        simp only [columnRef_iff.mpr hc]
        rw [if_pos hcomma, ih hend]
        rfl

theorem selectList_iff {all : Bool} {cs : List ColumnRef} (hrest : kind rest = .kwFrom) :
    Parser.selectList ts = .ok ((all, cs), rest) ↔ SelectList .lax ts all cs rest := by
  have hcomma : kind rest ≠ .comma := by rw [hrest]; decide
  rw [Parser.selectList]
  constructor
  · intro h
    split at h
    · next hk =>
        simp only [Except.ok.injEq, Prod.mk.injEq] at h
        obtain ⟨⟨rfl, rfl⟩, rfl⟩ := h
        exact .star hk
    · obtain ⟨⟨cs', ts'⟩, hrefs, h⟩ := Outcome.bind_eq_ok.mp h
      simp only [Except.ok.injEq, Prod.mk.injEq] at h
      obtain ⟨⟨rfl, rfl⟩, rfl⟩ := h
      exact .refs (columnRefs_iff.mp hrefs).1
  · intro h
    cases h with
    | star hk => exact if_pos hk
    | refs h =>
        have hk : kind ts ≠ .star := by
          cases h with
          | last hk _ => rw [hk]; decide
          | more hk _ _ _ => rw [hk]; decide
        rw [columnRefs_iff.mpr ⟨h, hcomma⟩]
        exact if_neg hk

theorem parseJoin_inner {c : ColumnRef} {right : List Token} (hk : kind ts = .kwInner)
    (hjoin : kind ts.tail = .kwJoin) (hid : kind ts.tail.tail = .identifier)
    (hon : kind ts.tail.tail.tail = .kwOn)
    (hc : Parser.columnRef ts.tail.tail.tail.tail = (c, right)) :
    Parser.parseJoin ts = if kind right = .opEq then
        .ok (some ⟨text ts.tail.tail, c, (Parser.columnRef right.tail).1, .eq⟩,
          (Parser.columnRef right.tail).2)
      else Parser.fail (Bytes.lit "Expected '=' in JOIN condition") := by
  rw [Parser.parseJoin, if_pos hk]
  simp only [expect_iff.mpr ⟨hjoin, rfl⟩, identifier_iff.mpr ⟨hid, rfl, rfl⟩,
    expect_iff.mpr ⟨hon, rfl⟩, Outcome.bind_ok, hc, ite_not, ne_eq]

theorem cmpOpOf_eq {k : TokenType} : cmpOpOf k = some .eq ↔ k = .opEq := by
  cases k <;> simp [cmpOpOf]

theorem join_iff {j : Option JoinClause} : Parser.parseJoin ts = .ok (j, rest) ↔
    Join .lax ts j rest ∧ (j = none → kind ts ≠ .kwInner) ∧ ∀ c, j = some c → c.op = .eq := by
  constructor
  · intro h
    rw [Parser.parseJoin] at h
    split at h
    · next hk =>
        obtain ⟨ts₁, h₁, h⟩ := Outcome.bind_eq_ok.mp h
        obtain ⟨⟨name, ts₂⟩, h₂, h⟩ := Outcome.bind_eq_ok.mp h
        obtain ⟨ts₃, h₃, h⟩ := Outcome.bind_eq_ok.mp h
        obtain ⟨hjoin, rfl⟩ := expect_iff.mp h₁
        obtain ⟨hid, rfl, rfl⟩ := identifier_iff.mp h₂
        obtain ⟨hon, rfl⟩ := expect_iff.mp h₃
        dsimp only at h
        split at h
        · exact absurd h (by simp [Parser.fail])
        · next heq =>
            obtain ⟨rfl, rfl⟩ := Prod.mk.inj (Except.ok.inj h)
            refine ⟨.inner hk hjoin rfl hid rfl hon rfl (columnRef_iff.mp (Prod.eta _).symm)
              (cmpOpOf_eq.mpr (not_not.mp heq)) (columnRef_iff.mp (Prod.eta _).symm),
              fun hnone => absurd hnone (by simp), ?_⟩
            intro c hc
            rw [← Option.some.inj hc]
    · next hk =>
        obtain ⟨rfl, rfl⟩ := Prod.mk.inj (Except.ok.inj h)
        exact ⟨.none, fun _ => hk, fun _ hsome => absurd hsome (by simp)⟩
  · rintro ⟨h, hnone, heq⟩
    cases h with
    | none => exact if_neg (hnone rfl)
    | @inner name on left right _ c d op hk hjoin hname hid hon hkon hleft hc hop hd =>
        subst hname hon hleft
        obtain rfl : op = .eq := heq _ rfl
        rw [parseJoin_inner hk hjoin hid hkon (columnRef_iff.mpr hc), if_pos (cmpOpOf_eq.mp hop),
          columnRef_iff.mpr hd]

/-- The parser takes no other operator than `=` in a join. -/
theorem join_fails {j : JoinClause} (h : Join .lax ts (some j) rest) (hop : j.op ≠ .eq) :
    ∃ e, Parser.parseJoin ts = .error e := by
  cases h with
  | @inner name on left right _ c d op hk hjoin hname hid hon hkon hleft hc hright hd =>
      subst hname hon hleft
      have hne : kind right ≠ .opEq := by
        intro heq
        rw [cmpOpOf_eq.mpr heq] at hright
        exact hop (Option.some.inj hright).symm
      rw [parseJoin_inner hk hjoin hid hkon (columnRef_iff.mpr hc), if_neg hne]
      exact ⟨_, rfl⟩

/-! ## Lists in parentheses -/

theorem kind_ne_end {k : TokenType} (h : kind ts = k) (hk : k ≠ .endOfInput) :
    ∃ t ts', ts = t :: ts' ∧ t.type = k := by
  cases ts with
  | nil => exact absurd h.symm hk
  | cons t ts' => exact ⟨t, ts', rfl, h⟩

theorem elements_of_values : ∀ {ts ts' : List Token} {vs : List Bytes},
    Parser.values ts = (vs, ts') → kind ts' = .rparen → Elements .lax ts vs ts'.tail
  | [], ts', vs, h, hk => by
      obtain ⟨-, rfl⟩ := Prod.mk.inj h
      exact absurd hk (by decide)
  | [t], ts', vs, h, hk => by
      rw [Parser.values] at h
      split at h
      · obtain ⟨rfl, rfl⟩ := Prod.mk.inj h
        exact .none rfl hk
      · obtain ⟨-, rfl⟩ := Prod.mk.inj h
        exact absurd hk (by decide)
  | t :: u :: us, ts', vs, h, hk => by
      rw [Parser.values] at h
      split at h
      · obtain ⟨rfl, rfl⟩ := Prod.mk.inj h
        exact .none rfl hk
      · next hend =>
          have helem : Element .lax (kind (t :: u :: us)) := .inr ⟨rfl, not_or.mp hend⟩
          dsimp only at h
          split at h
          · next hcomma =>
              obtain ⟨rfl, rfl⟩ := Prod.mk.inj h
              exact .more helem hcomma (elements_of_values (Prod.eta _).symm hk)
          · obtain ⟨rfl, rfl⟩ := Prod.mk.inj h
            exact .last helem hk

theorem values_of_elements {vs : List Bytes} (h : Elements .lax ts vs rest) :
    ∃ ts', Parser.values ts = (vs, ts') ∧ kind ts' = .rparen ∧ rest = ts'.tail := by
  have hmid : ∀ {k : TokenType}, Element .lax k → ¬ (k = .rparen ∨ k = .endOfInput) := by
    rintro k ((rfl | rfl | rfl) | ⟨-, hr, he⟩)
    · decide
    · decide
    · decide
    · exact not_or.mpr ⟨hr, he⟩
  induction h with
  | @none ts _ hk =>
      obtain ⟨t, ts, rfl, ht⟩ := kind_ne_end hk (by decide)
      refine ⟨t :: ts, ?_, hk, rfl⟩
      cases ts <;> exact if_pos (.inl ht)
  | @last ts he hk =>
      cases ts with
      | nil => exact absurd hk (by decide)
      | cons t ts =>
          obtain ⟨u, us, rfl, hu⟩ := kind_ne_end hk (by decide)
          refine ⟨u :: us, ?_, hk, rfl⟩
          have ht : ¬ (t.type = .rparen ∨ t.type = .endOfInput) := hmid he
          rw [Parser.values, if_neg ht]
          exact if_neg (by rw [hu]; decide)
  | @more ts rest vs he hk _ ih =>
      cases ts with
      | nil => exact absurd hk (by decide)
      | cons t ts =>
          obtain ⟨u, us, rfl, hu⟩ := kind_ne_end hk (by decide)
          obtain ⟨ts', hvs, hend⟩ := ih
          refine ⟨ts', ?_, hend⟩
          have ht : ¬ (t.type = .rparen ∨ t.type = .endOfInput) := hmid he
          rw [Parser.values, if_neg ht]
          dsimp only
          rw [if_pos hu, show Parser.values us = _ from hvs]
          rfl

theorem tuple_iff {vs : List Bytes} : Parser.tuple ts = .ok (vs, rest) ↔
    kind ts = .lparen ∧ Elements .lax ts.tail vs rest := by
  constructor
  · intro h
    obtain ⟨ts₁, h₁, h⟩ := Outcome.bind_eq_ok.mp h
    obtain ⟨ts₂, h₂, h⟩ := Outcome.bind_eq_ok.mp h
    obtain ⟨rfl, rfl⟩ := Prod.mk.inj (Except.ok.inj h)
    obtain ⟨hk, rfl⟩ := expect_iff.mp h₁
    obtain ⟨hend, rfl⟩ := expect_iff.mp h₂
    exact ⟨hk, elements_of_values (Prod.eta _).symm hend⟩
  · rintro ⟨hk, h⟩
    obtain ⟨ts', hvs, hend, rfl⟩ := values_of_elements h
    simp only [Parser.tuple, expect_iff.mpr ⟨hk, rfl⟩, Outcome.bind_ok, hvs,
      expect_iff.mpr ⟨hend, rfl⟩]

theorem tuples_eq (ts : List Token) : Parser.tuples ts = Parser.tuple ts >>= fun r =>
    if kind r.2 = .comma then Parser.tuples r.2.tail >>= fun q => .ok (r.1 :: q.1, q.2)
    else .ok ([r.1], r.2) := by
  conv_lhs => rw [Parser.tuples]
  split
  · next e he => rw [he]; rfl
  · next row ts' h => rw [Outcome.bind_of_ok h]

theorem tuples_of_tuple {row : List Bytes} (h : Parser.tuple ts = .ok (row, ts')) :
    Parser.tuples ts = if kind ts' = .comma then
        Parser.tuples ts'.tail >>= fun r => .ok (row :: r.1, r.2)
      else .ok ([row], ts') := by
  rw [tuples_eq, h]
  rfl

theorem tuples_iff {rows : List (List Bytes)} : Parser.tuples ts = .ok (rows, rest) ↔
    Tuples .lax ts rows rest ∧ kind rest ≠ .comma := by
  constructor
  · intro h
    induction hlen : ts.length using Nat.strongRecOn generalizing ts rows with
    | ind len ih =>
        subst hlen
        rw [Parser.tuples] at h
        split at h
        · exact absurd h (by simp)
        · next row ts₁ htuple =>
            obtain ⟨hk, hrow⟩ := tuple_iff.mp htuple
            split at h
            · next hcomma =>
                obtain ⟨⟨rows', ts₂⟩, hrec, h⟩ := Outcome.bind_eq_ok.mp h
                obtain ⟨rfl, rfl⟩ := Prod.mk.inj (Except.ok.inj h)
                have hlt := Parser.tuple_lt htuple
                have hlen : ts₁.tail.length < ts.length := by
                  rw [List.length_tail]
                  omega
                have hrows := ih _ hlen hrec rfl
                exact ⟨.more hk hrow hcomma hrows.1, hrows.2⟩
            · next hcomma =>
                obtain ⟨rfl, rfl⟩ := Prod.mk.inj (Except.ok.inj h)
                exact ⟨.last hk hrow, hcomma⟩
  · rintro ⟨h, hend⟩
    induction h with
    | last hk hrow => rw [tuples_of_tuple (tuple_iff.mpr ⟨hk, hrow⟩), if_neg hend]
    | more hk hrow hcomma _ ih =>
        rw [tuples_of_tuple (tuple_iff.mpr ⟨hk, hrow⟩), if_pos hcomma, ih hend]
        rfl

/-! ## Column definitions -/

theorem typeName_of_columnType {name typeName : Bytes} {len : UInt16}
    (htype : Parser.columnType name ts = .ok (typeName, ts'))
    (hlen : Parser.varcharLength typeName ts' = .ok (len, rest)) :
    TypeName ts typeName len rest := by
  rw [Parser.columnType] at htype
  split at htype
  · next hk =>
      obtain ⟨rfl, rfl⟩ := Prod.mk.inj (Except.ok.inj htype)
      obtain ⟨rfl, rfl⟩ := Prod.mk.inj (Except.ok.inj hlen)
      exact .int hk
  · next hk =>
      obtain ⟨rfl, rfl⟩ := Prod.mk.inj (Except.ok.inj htype)
      obtain ⟨rfl, rfl⟩ := Prod.mk.inj (Except.ok.inj hlen)
      exact .decimal hk
  · next hk =>
      obtain ⟨rfl, rfl⟩ := Prod.mk.inj (Except.ok.inj htype)
      rw [Parser.varcharLength] at hlen
      split at hlen
      · next hparen =>
          split at hlen
          · exact absurd hlen (by simp [Parser.fail])
          · next hint =>
              split at hlen
              · exact absurd hlen (by simp)
              · next n hn =>
                  obtain ⟨ts₁, hexp, hlen⟩ := Outcome.bind_eq_ok.mp hlen
                  obtain ⟨hend, rfl⟩ := expect_iff.mp hexp
                  obtain ⟨rfl, rfl⟩ := Prod.mk.inj (Except.ok.inj hlen)
                  exact .varcharOf hk hparen.2 rfl (not_not.mp hint) hn hend
      · next hparen =>
          obtain ⟨rfl, rfl⟩ := Prod.mk.inj (Except.ok.inj hlen)
          exact .varchar hk fun h => hparen ⟨rfl, h⟩
  · next hk =>
      obtain ⟨rfl, rfl⟩ := Prod.mk.inj (Except.ok.inj htype)
      obtain ⟨rfl, rfl⟩ := Prod.mk.inj (Except.ok.inj hlen)
      exact .datetime hk
  · exact absurd htype (by simp [Parser.fail])

theorem parser_of_typeName {typeName : Bytes} {len : UInt16} (h : TypeName ts typeName len rest)
    (name : Bytes) : ∃ ts', Parser.columnType name ts = .ok (typeName, ts') ∧
      Parser.varcharLength typeName ts' = .ok (len, rest) := by
  refine ⟨ts.tail, ?_⟩
  rw [Parser.columnType]
  cases h with
  | int hk => rw [show (Parser.current ts).type = .kwInt from hk]; exact ⟨rfl, rfl⟩
  | decimal hk => rw [show (Parser.current ts).type = .kwDecimal from hk]; exact ⟨rfl, rfl⟩
  | datetime hk => rw [show (Parser.current ts).type = .kwDatetime from hk]; exact ⟨rfl, rfl⟩
  | varchar hk hparen =>
      rw [show (Parser.current ts).type = .kwVarchar from hk]
      exact ⟨rfl, if_neg fun h => hparen h.2⟩
  | varcharOf hk hparen hts hint hn hend =>
      subst hts
      rw [show (Parser.current ts).type = .kwVarchar from hk, Parser.varcharLength,
        if_pos ⟨rfl, hparen⟩, if_neg (not_not.mpr hint), hn]
      dsimp only
      rw [expect_iff.mpr ⟨hend, rfl⟩]
      exact ⟨rfl, rfl⟩

theorem columnDef_iff {c : AstColumnDef} : Parser.columnDef ts = .ok (c, rest) ↔
    ColDef ts c rest := by
  constructor
  · intro h
    obtain ⟨⟨name, ts₁⟩, h₁, h⟩ := Outcome.bind_eq_ok.mp h
    obtain ⟨⟨typeName, ts₂⟩, h₂, h⟩ := Outcome.bind_eq_ok.mp h
    obtain ⟨⟨len, ts₃⟩, h₃, h⟩ := Outcome.bind_eq_ok.mp h
    obtain ⟨rfl, rfl⟩ := Prod.mk.inj (Except.ok.inj h)
    obtain ⟨hk, rfl, rfl⟩ := identifier_iff.mp h₁
    exact ⟨hk, rfl, typeName_of_columnType h₂ h₃⟩
  · rintro ⟨hk, hname, htype⟩
    obtain ⟨ts', h₁, h₂⟩ := parser_of_typeName htype c.name
    simp only [Parser.columnDef, identifier_iff.mpr ⟨hk, hname, rfl⟩, Outcome.bind_ok, h₁, h₂]

theorem columnDefs_eq (ts : List Token) : Parser.columnDefs ts =
    if kind ts = .rparen ∨ kind ts = .endOfInput then .ok ([], ts)
    else Parser.columnDef ts >>= fun r =>
      if kind r.2 = .comma then Parser.columnDefs r.2.tail >>= fun q => .ok (r.1 :: q.1, q.2)
      else .ok ([r.1], r.2) := by
  conv_lhs => rw [Parser.columnDefs]
  split
  · rfl
  · split
    · next e he => rw [he]; rfl
    · next c ts' h => rw [Outcome.bind_of_ok h]

theorem columnDefs_of_columnDef {c : AstColumnDef} (h : Parser.columnDef ts = .ok (c, ts')) :
    Parser.columnDefs ts = if kind ts' = .comma then
        Parser.columnDefs ts'.tail >>= fun r => .ok (c :: r.1, r.2)
      else .ok ([c], ts') := by
  have hk : ¬ (kind ts = .rparen ∨ kind ts = .endOfInput) := by
    rw [(columnDef_iff.mp h).name]
    decide
  rw [columnDefs_eq, if_neg hk, h]
  rfl

theorem colDefs_of_columnDefs {cs : List AstColumnDef} (h : Parser.columnDefs ts = .ok (cs, ts'))
    (hend : kind ts' = .rparen) : ColDefs .lax ts cs ts'.tail := by
  induction hlen : ts.length using Nat.strongRecOn generalizing ts cs with
  | ind len ih =>
      subst hlen
      rw [Parser.columnDefs] at h
      split at h
      · obtain ⟨rfl, rfl⟩ := Prod.mk.inj (Except.ok.inj h)
        exact .none rfl hend
      · split at h
        · exact absurd h nofun
        · next c ts₁ hc =>
            split at h
            · next hcomma =>
                obtain ⟨⟨cs', ts₂⟩, hrec, h⟩ := Outcome.bind_eq_ok.mp h
                obtain ⟨rfl, rfl⟩ := Prod.mk.inj (Except.ok.inj h)
                have hlt := Parser.columnDef_lt hc
                have hlen : ts₁.tail.length < ts.length := by
                  rw [List.length_tail]
                  omega
                exact .more (columnDef_iff.mp hc) hcomma (ih _ hlen hrec rfl)
            · obtain ⟨rfl, rfl⟩ := Prod.mk.inj (Except.ok.inj h)
              exact .last (columnDef_iff.mp hc) hend

theorem parser_of_colDefs {cs : List AstColumnDef} (h : ColDefs .lax ts cs rest) :
    ∃ ts', Parser.columnDefs ts = .ok (cs, ts') ∧ kind ts' = .rparen ∧ rest = ts'.tail := by
  induction h with
  | @none ts _ hk =>
      refine ⟨ts, ?_, hk, rfl⟩
      rw [Parser.columnDefs, if_pos (.inl hk)]
  | @last ts ts' c hc hk =>
      refine ⟨ts', ?_, hk, rfl⟩
      rw [columnDefs_of_columnDef (columnDef_iff.mpr hc), if_neg (by rw [hk]; decide)]
  | @more ts ts' rest c cs hc hk _ ih =>
      obtain ⟨ts₂, hcs, hend⟩ := ih
      refine ⟨ts₂, ?_, hend⟩
      rw [columnDefs_of_columnDef (columnDef_iff.mpr hc), if_pos hk, hcs]
      rfl

/-! ## Statements -/

/-- The operator of the join, if there is one, is `=`. -/
def JoinsByEq : Statement → Prop
  | .select stmt => ∀ j, stmt.join = some j → j.op = .eq
  | _ => True

variable {stmt : Statement}

theorem reading_of_create (hk : kind ts = .kwCreate)
    (h : Parser.parseCreateTable ts = .ok (stmt, rest)) :
    Reading .lax ts stmt rest ∧ JoinsByEq stmt := by
  obtain ⟨ts₁, h₁, h⟩ := Outcome.bind_eq_ok.mp h
  obtain ⟨⟨name, ts₂⟩, h₂, h⟩ := Outcome.bind_eq_ok.mp h
  obtain ⟨ts₃, h₃, h⟩ := Outcome.bind_eq_ok.mp h
  obtain ⟨⟨cols, ts₄⟩, h₄, h⟩ := Outcome.bind_eq_ok.mp h
  obtain ⟨ts₅, h₅, h⟩ := Outcome.bind_eq_ok.mp h
  obtain ⟨rfl, rfl⟩ := Prod.mk.inj (Except.ok.inj h)
  obtain ⟨htable, rfl⟩ := expect_iff.mp h₁
  obtain ⟨hid, rfl, rfl⟩ := identifier_iff.mp h₂
  obtain ⟨hparen, rfl⟩ := expect_iff.mp h₃
  obtain ⟨hend, rfl⟩ := expect_iff.mp h₅
  exact ⟨⟨_, .create hk htable rfl hid hparen (colDefs_of_columnDefs h₄ hend), rfl, rfl⟩, trivial⟩

theorem reading_of_insert (hk : kind ts = .kwInsert)
    (h : Parser.parseInsert ts = .ok (stmt, rest)) :
    Reading .lax ts stmt rest ∧ JoinsByEq stmt := by
  obtain ⟨ts₁, h₁, h⟩ := Outcome.bind_eq_ok.mp h
  obtain ⟨⟨name, ts₂⟩, h₂, h⟩ := Outcome.bind_eq_ok.mp h
  obtain ⟨ts₃, h₃, h⟩ := Outcome.bind_eq_ok.mp h
  obtain ⟨⟨rows, ts₄⟩, h₄, h⟩ := Outcome.bind_eq_ok.mp h
  obtain ⟨rfl, rfl⟩ := Prod.mk.inj (Except.ok.inj h)
  obtain ⟨hinto, rfl⟩ := expect_iff.mp h₁
  obtain ⟨hid, rfl, rfl⟩ := identifier_iff.mp h₂
  obtain ⟨hvalues, rfl⟩ := expect_iff.mp h₃
  obtain ⟨hrows, hcomma⟩ := tuples_iff.mp h₄
  exact ⟨⟨_, .insert hk hinto rfl hid hvalues hrows, decide_eq_false hcomma, rfl⟩, trivial⟩

theorem parseSelect_eq (ts : List Token) : Parser.parseSelect ts = (do
    let ((all, cols), ts) ← Parser.selectList ts.tail
    let ts ← Parser.expect .kwFrom (Bytes.lit "FROM") ts
    let (name, ts) ← Parser.identifier (Bytes.lit "Expected table name after FROM") ts
    let (join, ts) ← Parser.parseJoin ts
    .ok (.select ⟨name, cols, all, (optionalWhere ts).1, join⟩,
      Parser.skip .semicolon (optionalWhere ts).2)) := rfl

theorem continues_select {sel : SelectStmt} {k : TokenType} :
    continues (.select sel) k = false ↔
      (sel.whereClause = none → k ≠ .kwWhere ∧ (sel.join = none → k ≠ .kwInner)) := by
  cases hwhere : sel.whereClause with
  | some w => simp [continues, hwhere]
  | none => cases hjoin : sel.join <;> simp [continues, hwhere, hjoin]

theorem reading_of_select (hk : kind ts = .kwSelect)
    (h : Parser.parseSelect ts = .ok (stmt, rest)) :
    Reading .lax ts stmt rest ∧ JoinsByEq stmt := by
  rw [parseSelect_eq] at h
  obtain ⟨⟨⟨all, cols⟩, ts₁⟩, h₁, h⟩ := Outcome.bind_eq_ok.mp h
  obtain ⟨ts₂, h₂, h⟩ := Outcome.bind_eq_ok.mp h
  obtain ⟨⟨name, ts₃⟩, h₃, h⟩ := Outcome.bind_eq_ok.mp h
  obtain ⟨⟨join, ts₄⟩, h₄, h⟩ := Outcome.bind_eq_ok.mp h
  obtain ⟨rfl, rfl⟩ := Prod.mk.inj (Except.ok.inj h)
  obtain ⟨hfrom, rfl⟩ := expect_iff.mp h₂
  obtain ⟨hid, rfl, rfl⟩ := identifier_iff.mp h₃
  obtain ⟨hjoin, hinner, heq⟩ := join_iff.mp h₄
  obtain ⟨hwhere, hnone⟩ := where_iff.mp (Prod.eta (optionalWhere ts₄)).symm
  refine ⟨⟨_, .select hk ((selectList_iff hfrom).mp h₁) hfrom hid hjoin hwhere, ?_, rfl⟩, heq⟩
  -- without a `WHERE` the statement ends where the join ends
  have hsame : (optionalWhere ts₄).1 = none → (optionalWhere ts₄).2 = ts₄ := by
    intro hw
    rw [optionalWhere, if_neg (hnone hw)]
  refine continues_select.mpr fun hw => ?_
  rw [hsame hw]
  refine ⟨hnone hw, fun hj => ?_⟩
  rw [show join = none from hj] at hjoin
  cases hjoin
  exact hinner hj

theorem reading_of_parse (h : Parser.parse ts = .ok (stmt, rest)) :
    Reading .lax ts stmt rest ∧ JoinsByEq stmt := by
  rw [Parser.parse] at h
  split at h
  · next hk => exact reading_of_create hk h
  · next hk => exact reading_of_insert hk h
  · next hk => exact reading_of_select hk h
  · exact absurd h (by simp [Parser.fail])

/-- A `SELECT` up to its join, by the parser. -/
theorem parseSelect_of_list {ts₁ : List Token} {all : Bool} {cols : List ColumnRef}
    (hlist : SelectList .lax ts.tail all cols ts₁) (hfrom : kind ts₁ = .kwFrom)
    (hid : kind ts₁.tail = .identifier) :
    Parser.parseSelect ts = Parser.parseJoin ts₁.tail.tail >>= fun x =>
      .ok (.select ⟨text ts₁.tail, cols, all, (optionalWhere x.2).1, x.1⟩,
        Parser.skip .semicolon (optionalWhere x.2).2) := by
  rw [parseSelect_eq, (selectList_iff hfrom).mpr hlist]
  simp only [Outcome.bind_ok, expect_iff.mpr ⟨hfrom, rfl⟩, identifier_iff.mpr ⟨hid, rfl, rfl⟩]

theorem select_of_reading {sel : SelectStmt} (h : Stmt .lax ts (.select sel) ts')
    (hend : continues (.select sel) (kind ts') = false) (hj : JoinsByEq (.select sel)) :
    Parser.parseSelect ts = .ok (.select sel, Parser.skip .semicolon ts') := by
  cases h with
  | @select ts₁ ts₂ _ all cols join w hk hlist hfrom hid hjoin hwhere =>
      have hend := continues_select.mp hend
      have hw : optionalWhere ts₂ = (w, ts') := by
        refine where_iff.mpr ⟨hwhere, ?_⟩
        rintro rfl
        cases hwhere
        exact (hend rfl).1
      have hinner : join = none → kind ts₁.tail.tail ≠ .kwInner := by
        rintro rfl
        cases hjoin
        cases hwhere with
        | none => exact (hend rfl).2 rfl
        | cmp hk _ _ _ => rw [hk]; decide
        | bare _ hk _ _ => rw [hk]; decide
      rw [parseSelect_of_list hlist hfrom hid, join_iff.mpr ⟨hjoin, hinner, hj⟩, Outcome.bind_ok,
        hw]

theorem parse_of_reading (h : Reading .lax ts stmt rest) (hj : JoinsByEq stmt) :
    Parser.parse ts = .ok (stmt, rest) := by
  obtain ⟨ts', h, hend, rfl⟩ := h
  rw [Parser.parse]
  cases h with
  | create hk htable hname hid hparen hcols =>
      subst hname
      obtain ⟨ts₁, hrun, hparen', rfl⟩ := parser_of_colDefs hcols
      rw [show (Parser.current ts).type = .kwCreate from hk]
      simp only [Parser.parseCreateTable, expect_iff.mpr ⟨htable, rfl⟩,
        identifier_iff.mpr ⟨hid, rfl, rfl⟩, expect_iff.mpr ⟨hparen, rfl⟩, hrun,
        expect_iff.mpr ⟨hparen', rfl⟩, Outcome.bind_ok]
  | insert hk hinto hname hid hvalues hrows =>
      subst hname
      have htuples := tuples_iff.mpr ⟨hrows, of_decide_eq_false hend⟩
      rw [show (Parser.current ts).type = .kwInsert from hk]
      simp only [Parser.parseInsert, expect_iff.mpr ⟨hinto, rfl⟩,
        identifier_iff.mpr ⟨hid, rfl, rfl⟩, expect_iff.mpr ⟨hvalues, rfl⟩, htuples,
        Outcome.bind_ok]
  | select hk hlist hfrom hid hjoin hwhere =>
      rw [show (Parser.current ts).type = .kwSelect from hk]
      exact select_of_reading (.select hk hlist hfrom hid hjoin hwhere) hend hj

/-- A statement with another operator in its join is not parsed at all. -/
theorem joinsByEq_of_parse {stmt' : Statement} (h : Parser.parse ts = .ok (stmt', rest))
    (hstmt : Stmt .lax ts stmt ts') : JoinsByEq stmt := by
  cases hstmt with
  | create => trivial
  | insert => trivial
  | select hk hlist hfrom hid hjoin hwhere =>
      rintro j rfl
      by_contra hop
      obtain ⟨e, he⟩ := join_fails hjoin hop
      rw [Parser.parse, show (Parser.current ts).type = .kwSelect from hk] at h
      dsimp only at h
      rw [parseSelect_of_list hlist hfrom hid, he] at h
      exact absurd h (by simp)

/-- There is only one way to read a text the parser accepts. -/
theorem reading_unique {g : Strength} {stmt' : Statement} (h : Parser.parse ts = .ok (stmt, rest))
    (hread : Reading g ts stmt' ts') : stmt' = stmt ∧ ts' = rest := by
  obtain ⟨ts₁, hstmt, hend, rfl⟩ := hread
  have hlax := stmt_lax hstmt
  have hparse := parse_of_reading ⟨ts₁, hlax, hend, rfl⟩ (joinsByEq_of_parse h hlax)
  exact Prod.mk.inj (Except.ok.inj (hparse.symm.trans h))

/-! ## What is left over -/

theorem sentence_of_reading {g : Strength} (h : Reading g ts stmt rest) :
    Sentence g ts stmt rest := by
  obtain ⟨ts₁, hstmt, -, rfl⟩ := h
  refine ⟨ts₁, hstmt, ?_⟩
  rw [Parser.skip]
  split
  · next hk => exact .inr ⟨hk, rfl⟩
  · exact .inl rfl

theorem not_continues {k : TokenType} (stmt : Statement) (h : k = .endOfInput ∨ k = .semicolon) :
    continues stmt k = false := by
  rcases h with rfl | rfl
  · cases stmt <;> simp [continues]
  · cases stmt <;> simp [continues]

/-- A sentence with nothing behind it does not go on. -/
theorem reading_of_end {g : Strength} (h : Sentence g ts stmt rest)
    (hend : kind rest = .endOfInput) : Reading g ts stmt rest := by
  obtain ⟨ts₁, hstmt, rfl | ⟨hk, rfl⟩⟩ := h
  · refine ⟨rest, hstmt, not_continues stmt (.inl hend), ?_⟩
    have hk : kind rest ≠ .semicolon := by rw [hend]; decide
    rw [Parser.skip, if_neg hk]
  · refine ⟨ts₁, hstmt, not_continues stmt (.inr hk), ?_⟩
    rw [Parser.skip, if_pos hk]

/-- Nothing of an accepted text is left over exactly when all of it is one
sentence of the lax grammar. -/
theorem parseSql_consumes_iff {sql : Bytes} (h : parseSql sql = .ok (.ok stmt)) :
    ∃ rest, Parser.parse (Lexer.tokenize sql).1 = .ok (stmt, rest) ∧
      (kind rest = .endOfInput ↔ ∃ stmt' rest',
        Sentence .lax (Lexer.tokenize sql).1 stmt' rest' ∧ kind rest' = .endOfInput) := by
  obtain ⟨rest, hparse⟩ := parseSql_ok h
  refine ⟨rest, hparse, fun hend => ?_, ?_⟩
  · exact ⟨stmt, rest, sentence_of_reading (reading_of_parse hparse).1, hend⟩
  · rintro ⟨stmt', rest', hsentence, hend⟩
    obtain ⟨-, rfl⟩ := reading_unique hparse (reading_of_end hsentence hend)
    exact hend

theorem parseSql_consumes_select : ∃ rest,
    Parser.parse (Lexer.tokenize (Bytes.lit "SELECT * FROM t;")).1 =
      .ok (.select ⟨Bytes.lit "t", [], true, none, none⟩, rest) ∧ kind rest = .endOfInput ∧
    ∃ stmt' rest', Sentence .lax (Lexer.tokenize (Bytes.lit "SELECT * FROM t;")).1 stmt' rest' ∧
      kind rest' = .endOfInput := by
  have hsql : parseSql (Bytes.lit "SELECT * FROM t;") =
      .ok (.ok (.select ⟨Bytes.lit "t", [], true, none, none⟩)) := by
    decide +kernel
  have hkind : (Parser.parse (Lexer.tokenize (Bytes.lit "SELECT * FROM t;")).1).map
      (fun x => kind x.2) = .ok .endOfInput := by
    decide +kernel
  obtain ⟨rest, hparse, hiff⟩ := parseSql_consumes_iff hsql
  have hend : kind rest = .endOfInput := by
    rw [hparse] at hkind
    exact Except.ok.inj hkind
  exact ⟨rest, hparse, hend, hiff.mp hend⟩

/-- The second condition is not read. -/
theorem parseSql_ignores_and : ∃ stmt rest,
    parseSql (Bytes.lit "SELECT * FROM t WHERE a = 1 AND b = 2") = .ok (.ok stmt) ∧
    Parser.parse (Lexer.tokenize (Bytes.lit "SELECT * FROM t WHERE a = 1 AND b = 2")).1 =
      .ok (stmt, rest) ∧ kind rest = .identifier := by
  have hsql : parseSql (Bytes.lit "SELECT * FROM t WHERE a = 1 AND b = 2") =
      .ok (.ok (.select ⟨Bytes.lit "t", [], true,
        some ⟨⟨[], Bytes.lit "a"⟩, .eq, Bytes.lit "1"⟩, none⟩)) := by
    decide +kernel
  have hkind : (Parser.parse (Lexer.tokenize
      (Bytes.lit "SELECT * FROM t WHERE a = 1 AND b = 2")).1).map (fun x => kind x.2) =
        .ok .identifier := by
    decide +kernel
  obtain ⟨rest, hparse⟩ := parseSql_ok hsql
  rw [hparse] at hkind
  exact ⟨_, rest, hsql, hparse, Except.ok.inj hkind⟩

/-! ## Sentences as documented -/

/-- The sentence the parser took does not go on. -/
theorem reading_of_sentence (hparse : Parser.parse ts = .ok (stmt, rest))
    (h : Sentence .documented ts stmt rest) : ∃ rest', Reading .documented ts stmt rest' := by
  obtain ⟨ts₁, hstmt, hrest⟩ := h
  refine ⟨Parser.skip .semicolon ts₁, ts₁, hstmt, ?_, rfl⟩
  rcases hrest with rfl | ⟨hk, -⟩
  · obtain ⟨ts₂, hlax, hend, hskip⟩ := (reading_of_parse hparse).1
    rw [Parser.skip] at hskip
    split at hskip
    · next hsemi =>
        -- the parser took a semicolon behind it, but the sentence does not end in one
        obtain ⟨t, ht, hsuffix⟩ := stmt_ends hstmt
        obtain ⟨u, us, rfl, hu⟩ := kind_ne_end hsemi (by decide)
        obtain rfl : rest = us := hskip
        obtain ⟨pre, hpre⟩ := hsuffix
        obtain ⟨pre', hpre'⟩ := stmt_suffix hlax
        have hlast := List.append_inj_right' (hpre.trans hpre'.symm) rfl
        exact absurd ((List.cons.inj hlast).1 ▸ hu) ht
    · rwa [hskip]
  · exact not_continues stmt (.inr hk)

/-- What the parser took of an accepted text is a sentence of the documented
grammar exactly when the text begins with one that does not go on. -/
theorem parseSql_documented_iff {sql : Bytes} (h : parseSql sql = .ok (.ok stmt)) :
    ∃ rest, Parser.parse (Lexer.tokenize sql).1 = .ok (stmt, rest) ∧
      (Sentence .documented (Lexer.tokenize sql).1 stmt rest ↔ ∃ stmt' rest',
        Reading .documented (Lexer.tokenize sql).1 stmt' rest') := by
  obtain ⟨rest, hparse⟩ := parseSql_ok h
  refine ⟨rest, hparse, fun hsentence => ⟨stmt, reading_of_sentence hparse hsentence⟩, ?_⟩
  rintro ⟨stmt', rest', hread⟩
  obtain ⟨rfl, rfl⟩ := reading_unique hparse hread
  exact sentence_of_reading hread

theorem parseSql_documented_select : ∃ rest,
    Parser.parse (Lexer.tokenize (Bytes.lit "SELECT * FROM t")).1 =
      .ok (.select ⟨Bytes.lit "t", [], true, none, none⟩, rest) ∧
    Sentence .documented (Lexer.tokenize (Bytes.lit "SELECT * FROM t")).1
      (.select ⟨Bytes.lit "t", [], true, none, none⟩) rest := by
  have hsql : parseSql (Bytes.lit "SELECT * FROM t") =
      .ok (.ok (.select ⟨Bytes.lit "t", [], true, none, none⟩)) := by
    decide +kernel
  have htokens : (Lexer.tokenize (Bytes.lit "SELECT * FROM t")).1 =
      [⟨.kwSelect, Bytes.lit "SELECT", 1, 1⟩, ⟨.star, Bytes.lit "*", 1, 8⟩,
        ⟨.kwFrom, Bytes.lit "FROM", 1, 10⟩, ⟨.identifier, Bytes.lit "t", 1, 15⟩,
        ⟨.endOfInput, [], 1, 16⟩] := by
    decide +kernel
  obtain ⟨rest, hparse, hiff⟩ := parseSql_documented_iff hsql
  refine ⟨rest, hparse, hiff.mpr ?_⟩
  rw [htokens]
  exact ⟨_, _, _, .select rfl (.star rfl) rfl rfl .none .none, rfl, rfl⟩

/-- A table without columns. -/
theorem parseSql_takes_empty_list : ∃ rest,
    parseSql (Bytes.lit "CREATE TABLE t ()") = .ok (.ok (.createTable ⟨Bytes.lit "t", []⟩)) ∧
    Parser.parse (Lexer.tokenize (Bytes.lit "CREATE TABLE t ()")).1 =
      .ok (.createTable ⟨Bytes.lit "t", []⟩, rest) ∧
    ¬ Sentence .documented (Lexer.tokenize (Bytes.lit "CREATE TABLE t ()")).1
      (.createTable ⟨Bytes.lit "t", []⟩) rest := by
  have hsql : parseSql (Bytes.lit "CREATE TABLE t ()") =
      .ok (.ok (.createTable ⟨Bytes.lit "t", []⟩)) := by
    decide +kernel
  obtain ⟨rest, hparse⟩ := parseSql_ok hsql
  refine ⟨rest, hsql, hparse, ?_⟩
  rintro ⟨ts', hstmt, -⟩
  generalize hs : Statement.createTable ⟨Bytes.lit "t", []⟩ = stmt at hstmt
  cases hstmt with
  | create _ _ _ _ _ hcols =>
      obtain ⟨-, rfl⟩ := CreateTableStmt.mk.inj (Statement.createTable.inj hs)
      cases hcols with
      | none h => exact absurd h nofun
  | insert => exact absurd hs nofun
  | select => exact absurd hs nofun

end FlexQL.Proofs
