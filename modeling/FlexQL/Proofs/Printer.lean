import FlexQL.Proofs.Grammar
import FlexQL.Proofs.Lexing

/-!
# The parser inverts the printer

The lexer reads a printed statement back as its lexemes (`tokenize_render`).
Here the lexemes are read by the grammar, one lemma for each part of a
statement; what the grammar reads to the end of the text, the parser returns.
-/

namespace FlexQL.Proofs

open Lib FlexQL.Ref FlexQL.Spec FlexQL.Spec.Grammar
open FlexQL.Spec.Printer (Lexeme Identifier IsColumnRef IsType IsSelectList IsJoin InLanguage listed
  opType)

variable {ts rest : List Token} {g : Strength}

/-! ## Lexemes at the front of the tokens -/

/-- The tokens start with these lexemes, and `rest` stands behind them. -/
def Spells : List Token → List Lexeme → List Token → Prop
  | ts, [], rest => rest = ts
  | ts, a :: ls, rest => kind ts = a.token.1 ∧ text ts = a.token.2 ∧ Spells ts.tail ls rest

theorem spells_append {ls ls' : List Lexeme} (h : Spells ts (ls ++ ls') rest) :
    ∃ mid, Spells ts ls mid ∧ Spells mid ls' rest := by
  induction ls generalizing ts with
  | nil => exact ⟨ts, rfl, h⟩
  | cons a ls ih =>
      obtain ⟨mid, hmid, hrest⟩ := ih h.2.2
      exact ⟨mid, ⟨h.1, h.2.1, hmid⟩, hrest⟩

theorem spells_of_tokens {ls : List Lexeme} {out : List (TokenType × Bytes)}
    (h : ts.map erase = ls.map Lexeme.token ++ out) :
    ∃ rest, Spells ts ls rest ∧ rest.map erase = out := by
  induction ls generalizing ts with
  | nil => exact ⟨ts, rfl, h⟩
  | cons a ls ih =>
      cases ts with
      | nil => exact absurd h (by simp)
      | cons t ts =>
          have hcons := List.cons.inj h
          obtain ⟨rest, hspells, hout⟩ := ih hcons.2
          exact ⟨rest, ⟨congrArg Prod.fst hcons.1, congrArg Prod.snd hcons.1, hspells⟩, hout⟩

/-! ## Columns -/

theorem spells_columnRef {c : ColumnRef} (h : Spells ts (Printer.columnRef c) rest)
    (hrest : kind rest ≠ .dot) : ColRef g ts c rest ∧ kind ts = .identifier := by
  obtain ⟨table, column⟩ := c
  rw [Printer.columnRef] at h
  split at h
  · next htable =>
      obtain ⟨hk, rfl, rfl⟩ := h
      obtain rfl : table = [] := htable
      exact ⟨.bare (.inl hk) hrest, hk⟩
  · obtain ⟨hk, rfl, hdot, _, hk', rfl, rfl⟩ := h
    exact ⟨.qualified (.inl hk) hdot rfl (.inl hk'), hk⟩

theorem spells_columnRefs {cs : List ColumnRef} (hne : cs ≠ [])
    (h : Spells ts (listed Printer.columnRef cs) rest) (hrest : kind rest ≠ .dot) :
    ColRefs g ts cs rest := by
  induction cs generalizing ts with
  | nil => exact absurd rfl hne
  | cons c cs ih =>
      cases cs with
      | nil =>
          obtain ⟨hc, hk⟩ := spells_columnRef h hrest
          exact .last hk hc
      | cons d cs =>
          obtain ⟨mid, hc, hcomma, _, hcs⟩ := spells_append h
          have hdot : kind mid ≠ .dot := by rw [hcomma]; decide
          obtain ⟨hc, hk⟩ := spells_columnRef hc hdot
          exact .more hk hc hcomma (ih (by simp) hcs)

theorem spells_selectList {stmt : SelectStmt} (hl : IsSelectList stmt.selectAll stmt.columns)
    (h : Spells ts (Printer.selectList stmt) rest) (hrest : kind rest ≠ .dot) :
    SelectList g ts stmt.selectAll stmt.columns rest := by
  rw [Printer.selectList] at h
  rw [IsSelectList] at hl
  split at h
  · next hall =>
      rw [if_pos hall] at hl
      obtain ⟨hk, _, rfl⟩ := h
      rw [hall, hl]
      exact .star hk
  · next hall =>
      rw [if_neg hall] at hl
      rw [Bool.eq_false_of_not_eq_true hall]
      exact .refs (spells_columnRefs hl.1 h hrest)

theorem cmpOpOf_opType (op : AstCmpOp) : cmpOpOf (opType op) = some op := by
  cases op <;> rfl

theorem opType_ne_dot (op : AstCmpOp) : opType op ≠ .dot := by
  cases op <;> decide

theorem spells_join {j : Option JoinClause} (h : Spells ts (Printer.joinClause j) rest)
    (hrest : kind rest ≠ .dot) : Join g ts j rest := by
  cases j with
  | none =>
      obtain rfl : rest = ts := h
      exact .none
  | some j =>
      obtain ⟨table, left, right, op⟩ := j
      simp only [Printer.joinClause, List.cons_append, List.nil_append] at h
      obtain ⟨hinner, _, hjoin, _, hname, rfl, hon, _, hcond⟩ := h
      obtain ⟨mid, hleft, hop, _, hright⟩ := spells_append hcond
      have hdot : kind mid ≠ .dot := by rw [hop]; exact opType_ne_dot op
      exact .inner hinner hjoin rfl hname rfl hon rfl (spells_columnRef hleft hdot).1
        (by rw [hop]; exact cmpOpOf_opType op) (spells_columnRef hright hrest).1

theorem spells_where {w : Option WhereClause} (h : Spells ts (Printer.whereClause w) rest) :
    Where g ts w rest := by
  cases w with
  | none =>
      obtain rfl : rest = ts := h
      exact .none
  | some w =>
      obtain ⟨column, op, literal⟩ := w
      obtain ⟨hwhere, _, h⟩ := h
      obtain ⟨mid, hcolumn, hop, _, hlit, rfl, rfl⟩ := spells_append h
      have hdot : kind mid ≠ .dot := by rw [hop]; exact opType_ne_dot op
      exact .cmp hwhere (spells_columnRef hcolumn hdot).1
        (by rw [hop]; exact cmpOpOf_opType op) (.inl (.inr (.inr hlit)))

/-! ## Tuples -/

theorem spells_elements {vs : List Bytes}
    (h : Spells ts (listed (fun v => [.quoted v]) vs ++ [.fixed .rparen]) rest) :
    Elements .lax ts vs rest := by
  induction vs generalizing ts with
  | nil =>
      obtain ⟨hparen, _, rfl⟩ := h
      exact .none rfl hparen
  | cons v vs ih =>
      cases vs with
      | nil =>
          obtain ⟨hv, rfl, hparen, _, rfl⟩ := h
          exact .last (.inl (.inr (.inr hv))) hparen
      | cons w vs =>
          obtain ⟨hv, rfl, hcomma, _, hvs⟩ := h
          exact .more (.inl (.inr (.inr hv))) hcomma (ih hvs)

theorem spells_tuples {rows : List (List Bytes)} (hne : rows ≠ [])
    (h : Spells ts (listed Printer.tuple rows) rest) : Tuples .lax ts rows rest := by
  induction rows generalizing ts with
  | nil => exact absurd rfl hne
  | cons vs rows ih =>
      cases rows with
      | nil => exact .last h.1 (spells_elements h.2.2)
      | cons ws rows =>
          obtain ⟨mid, hvs, hcomma, _, hrows⟩ := spells_append h
          exact .more hvs.1 (spells_elements hvs.2.2) hcomma (ih (by simp) hrows)

/-! ## Column definitions -/

theorem stoi_ofNat {n : Nat} (h : n < 2 ^ 31) : stoi (Bytes.ofNat n) = some (Int32.ofInt n) := by
  rw [stoi, Bytes.leadingInt_ofNat]
  exact if_pos (by omega)

/-- The length of a `VARCHAR` survives the way through an `int`. -/
theorem ofInt_toUInt16 (len : UInt16) :
    (Int32.ofInt (len.toNat : Int)).toUInt32.toUInt16 = len := by
  apply UInt16.toNat_inj.mp
  rw [Int32.ofInt_eq_ofNat]
  simp

theorem spells_columnType {c : AstColumnDef} (hc : IsType c)
    (h : Spells ts (Printer.columnType c) rest) :
    TypeName ts c.typeName c.varcharLen rest := by
  obtain ⟨name, typeName, len⟩ := c
  rcases hc with hvarchar | ⟨htype, hlen⟩
  · obtain rfl : typeName = Bytes.lit "VARCHAR" := hvarchar
    have hlook : keywords.lookup (Bytes.lit "VARCHAR") = some .kwVarchar := by decide +kernel
    simp only [Printer.columnType, hlook] at h
    obtain ⟨hk, _, hparen, _, hint, hn, hclose, _, rfl⟩ := h
    have hstoi := stoi_ofNat (Nat.lt_trans len.toNat_lt (by decide))
    rw [← ofInt_toUInt16 len]
    exact .varcharOf hk hparen rfl hint (hn ▸ hstoi) hclose
  · obtain rfl : len = defaultVarcharMax := hlen
    have hint : keywords.lookup (Bytes.lit "INT") = some .kwInt := by decide +kernel
    have hdecimal : keywords.lookup (Bytes.lit "DECIMAL") = some .kwDecimal := by decide +kernel
    have hdatetime : keywords.lookup (Bytes.lit "DATETIME") = some .kwDatetime := by decide +kernel
    simp only [List.mem_cons, List.not_mem_nil, or_false] at htype
    rcases htype with rfl | rfl | rfl
    · simp only [Printer.columnType, hint] at h
      obtain ⟨hk, _, rfl⟩ := h
      exact .int hk
    · simp only [Printer.columnType, hdecimal] at h
      obtain ⟨hk, _, rfl⟩ := h
      exact .decimal hk
    · simp only [Printer.columnType, hdatetime] at h
      obtain ⟨hk, _, rfl⟩ := h
      exact .datetime hk

theorem spells_columnDefs {cs : List AstColumnDef} (hne : cs ≠ []) (hcs : ∀ c ∈ cs, IsType c)
    (h : Spells ts (listed Printer.columnDef cs ++ [.fixed .rparen]) rest) :
    ColDefs g ts cs rest := by
  induction cs generalizing ts with
  | nil => exact absurd rfl hne
  | cons c cs ih =>
      have hdef : ∀ {ts rest : List Token}, Spells ts (Printer.columnDef c) rest →
          ColDef ts c rest :=
        fun h => ⟨h.1, h.2.1.symm, spells_columnType (hcs c (by simp)) h.2.2⟩
      cases cs with
      | nil =>
          obtain ⟨mid, hc, hparen, _, rfl⟩ := spells_append h
          exact .last (hdef hc) hparen
      | cons d cs =>
          rw [listed, List.append_assoc] at h
          obtain ⟨mid, hc, hcomma, _, hrest⟩ := spells_append h
          exact .more (hdef hc) hcomma
            (ih (by simp) (fun c hc => hcs c (List.mem_cons_of_mem _ hc)) hrest)

/-! ## Statements -/

/-- A printed statement is a statement of the grammar. -/
theorem stmt_of_spells {stmt : Statement} (hstmt : InLanguage stmt)
    (h : Spells ts (Printer.statement stmt) rest) (hrest : kind rest = .endOfInput) :
    Stmt .lax ts stmt rest := by
  cases stmt with
  | createTable stmt =>
      obtain ⟨name, cols⟩ := stmt
      rw [Printer.statement, List.append_assoc] at h
      obtain ⟨hcreate, _, htable, _, hname, rfl, hparen, _, hcols⟩ := h
      exact .create hcreate htable rfl hname hparen
        (spells_columnDefs hstmt.2.1 (fun c hc => (hstmt.2.2 c hc).2) hcols)
  | insert stmt =>
      obtain ⟨name, rows⟩ := stmt
      obtain ⟨hinsert, _, hinto, _, hname, rfl, hvalues, _, hrows⟩ := h
      exact .insert hinsert hinto rfl hname hvalues (spells_tuples hstmt.2 hrows)
  | select stmt =>
      obtain ⟨name, cols, all, w, join⟩ := stmt
      obtain ⟨hselect, _, h⟩ := h
      obtain ⟨ts₂, h, hwhere⟩ := spells_append h
      obtain ⟨ts₃, h, hjoin⟩ := spells_append h
      obtain ⟨ts₁, hlist, hfrom, _, hname, rfl, rfl⟩ := spells_append h
      have hdot₁ : kind ts₁ ≠ .dot := by rw [hfrom]; decide
      have hdot₂ : kind ts₂ ≠ .dot := by
        cases w with
        | none => obtain rfl : rest = ts₂ := hwhere; rw [hrest]; decide
        | some w => rw [hwhere.1]; decide
      exact .select hselect (spells_selectList hstmt.2.1 hlist hdot₁) hfrom hname
        (spells_join hjoin hdot₂) (spells_where hwhere)

/-! ### The lexer knows every lexeme of a printed statement -/

/-- The types whose tokens are always spelled the same. -/
def isFixed : TokenType → Bool
  | .identifier | .intLiteral | .floatLiteral | .stringLiteral => false
  | .semicolon | .endOfInput | .invalid => false
  | _ => true

theorem wellFormed_fixed {type : TokenType} (h : isFixed type = true) :
    WellFormed (.fixed type) := by
  show Printer.spelling type ≠ []
  cases type <;> first
    | exact absurd h (by decide)
    | decide +kernel

theorem isFixed_of_lookup {word : Bytes} {type : TokenType}
    (h : keywords.lookup word = some type) : isFixed type = true := by
  have hall : keywords.all (fun p => isFixed p.2) = true := rfl
  exact List.all_eq_true.mp hall _ (pair_mem_of_lookup h)

theorem wellFormed_listed {α : Type} {f : α → List Lexeme} {xs : List α}
    (h : ∀ x ∈ xs, ∀ a ∈ f x, WellFormed a) : ∀ a ∈ listed f xs, WellFormed a := by
  induction xs with
  | nil => exact List.forall_mem_nil _
  | cons x xs ih =>
      rw [List.forall_mem_cons] at h
      cases xs with
      | nil => exact h.1
      | cons y xs =>
          rw [listed, List.forall_mem_append, List.forall_mem_cons]
          exact ⟨h.1, wellFormed_fixed rfl, ih h.2⟩

theorem wellFormed_columnRef {c : ColumnRef} (hc : IsColumnRef c) :
    ∀ a ∈ Printer.columnRef c, WellFormed a := by
  rw [Printer.columnRef]
  split
  · exact List.forall_mem_singleton.mpr hc.column
  · next htable =>
      simp only [List.forall_mem_cons]
      exact ⟨hc.table.resolve_left htable, wellFormed_fixed rfl, hc.column,
        List.forall_mem_nil _⟩

theorem wellFormed_columnDef {c : AstColumnDef} (hc : Identifier c.name) :
    ∀ a ∈ Printer.columnDef c, WellFormed a := by
  rw [Printer.columnDef, List.forall_mem_cons, Printer.columnType]
  refine ⟨hc, ?_⟩
  split
  · simp only [List.forall_mem_cons]
    exact ⟨wellFormed_fixed rfl, wellFormed_fixed rfl, trivial,
      wellFormed_fixed rfl, List.forall_mem_nil _⟩
  · next type _ hlook =>
      exact List.forall_mem_singleton.mpr (wellFormed_fixed (isFixed_of_lookup hlook))
  · exact List.forall_mem_nil _

theorem wellFormed_tuple (vs : List Bytes) : ∀ a ∈ Printer.tuple vs, WellFormed a := by
  rw [Printer.tuple, List.forall_mem_cons, List.forall_mem_append]
  exact ⟨wellFormed_fixed rfl,
    wellFormed_listed fun _ _ => List.forall_mem_singleton.mpr trivial,
    List.forall_mem_singleton.mpr (wellFormed_fixed rfl)⟩

theorem wellFormed_opType (op : AstCmpOp) : WellFormed (.fixed (opType op)) := by
  cases op <;> exact wellFormed_fixed rfl

theorem wellFormed_joinClause {j : Option JoinClause} (hj : ∀ j' ∈ j, IsJoin j') :
    ∀ a ∈ Printer.joinClause j, WellFormed a := by
  cases j with
  | none => exact List.forall_mem_nil _
  | some j =>
      have hj := hj j rfl
      simp only [Printer.joinClause, List.forall_mem_append, List.forall_mem_cons]
      exact ⟨⟨⟨wellFormed_fixed rfl, wellFormed_fixed rfl, hj.table,
        wellFormed_fixed rfl, List.forall_mem_nil _⟩, wellFormed_columnRef hj.left⟩,
        wellFormed_opType j.op, wellFormed_columnRef hj.right⟩

theorem wellFormed_whereClause {w : Option WhereClause} (hw : ∀ w' ∈ w, IsColumnRef w'.column) :
    ∀ a ∈ Printer.whereClause w, WellFormed a := by
  cases w with
  | none => exact List.forall_mem_nil _
  | some w =>
      simp only [Printer.whereClause, List.forall_mem_append, List.forall_mem_cons]
      exact ⟨wellFormed_fixed rfl, wellFormed_columnRef (hw w rfl),
        wellFormed_opType w.op, trivial, List.forall_mem_nil _⟩

theorem wellFormed_selectList {stmt : SelectStmt}
    (hl : IsSelectList stmt.selectAll stmt.columns) :
    ∀ a ∈ Printer.selectList stmt, WellFormed a := by
  rw [Printer.selectList]
  rw [IsSelectList] at hl
  split at hl
  · next hall =>
      rw [if_pos hall]
      exact List.forall_mem_singleton.mpr (wellFormed_fixed rfl)
  · next hall =>
      rw [if_neg hall]
      exact wellFormed_listed fun c hc => wellFormed_columnRef (hl.2 c hc)

theorem wellFormed_statement {stmt : Statement} (hstmt : InLanguage stmt) :
    ∀ a ∈ Printer.statement stmt, WellFormed a := by
  cases stmt with
  | createTable stmt =>
      simp only [Printer.statement, List.forall_mem_append, List.forall_mem_cons]
      exact ⟨⟨⟨wellFormed_fixed rfl, wellFormed_fixed rfl, hstmt.1,
        wellFormed_fixed rfl, List.forall_mem_nil _⟩,
        wellFormed_listed fun c hc => wellFormed_columnDef (hstmt.2.2 c hc).1⟩,
        wellFormed_fixed rfl, List.forall_mem_nil _⟩
  | insert stmt =>
      simp only [Printer.statement, List.forall_mem_append, List.forall_mem_cons]
      exact ⟨⟨wellFormed_fixed rfl, wellFormed_fixed rfl, hstmt.1,
        wellFormed_fixed rfl, List.forall_mem_nil _⟩,
        wellFormed_listed fun vs _ => wellFormed_tuple vs⟩
  | select stmt =>
      simp only [Printer.statement, List.cons_append, List.forall_mem_append, List.forall_mem_cons]
      exact ⟨wellFormed_fixed rfl, ⟨⟨wellFormed_selectList hstmt.2.1,
        wellFormed_fixed rfl, hstmt.1, List.forall_mem_nil _⟩,
        wellFormed_joinClause hstmt.2.2.1⟩, wellFormed_whereClause hstmt.2.2.2⟩

/-! ## The round trip -/

theorem joinsByEq_of_inLanguage {stmt : Statement} (h : InLanguage stmt) : JoinsByEq stmt := by
  cases stmt with
  | createTable stmt => trivial
  | insert stmt => trivial
  | select stmt => exact fun j hj => (h.2.2.1 j hj).op

theorem kind_of_erase (h : ts.map erase = [(.endOfInput, [])]) : kind ts = .endOfInput := by
  cases ts with
  | nil => rfl
  | cons t ts => exact congrArg Prod.fst (List.cons.inj h).1

/-- Every statement of the language is what `parse_sql` reads from its text. -/
theorem parseSql_print {stmt : Statement} (h : InLanguage stmt) :
    parseSql (Printer.print stmt) = .ok (.ok stmt) := by
  obtain ⟨htokens, herror⟩ := tokenize_render (wellFormed_statement h)
  obtain ⟨rest, hspells, hrest⟩ := spells_of_tokens htokens
  have hend := kind_of_erase hrest
  have hreading : Reading .lax _ stmt _ :=
    ⟨rest, stmt_of_spells h hspells hend, not_continues stmt (.inl hend), rfl⟩
  have hparse := parse_of_reading hreading (joinsByEq_of_inLanguage h)
  simp only [parseSql, Printer.print, herror, hparse]
  rfl

/-- A literal with a quote, a backslash and a keyword in it. -/
theorem parseSql_print_insert :
    Printer.print (.insert ⟨Bytes.lit "t", [[Bytes.lit "it's \\ FROM", []]]⟩) =
      Bytes.lit "INSERT INTO t VALUES ('it\\'s \\\\ FROM', '')" ∧
    parseSql (Printer.print (.insert ⟨Bytes.lit "t", [[Bytes.lit "it's \\ FROM", []]]⟩)) =
      .ok (.ok (.insert ⟨Bytes.lit "t", [[Bytes.lit "it's \\ FROM", []]]⟩)) := by
  have hid : Identifier (Bytes.lit "t") :=
    ⟨by decide +kernel, by decide +kernel, by decide +kernel⟩
  exact ⟨by decide +kernel, parseSql_print ⟨hid, by simp⟩⟩

end FlexQL.Proofs
