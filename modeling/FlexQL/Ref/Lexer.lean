import FlexQL.Lib.Bytes

/-!
# The tokenizer (`lexer.h`, `lexer.cpp`)

The lexer walks over the input one character at a time; its state is the
input that is left, the position, and the last error. The loops that read a
number, a word or a string are functions of the input that is left: they say
what is read, and `advanceBy` moves over it.
-/

namespace FlexQL.Ref

open Lib

/-- `TokenType` -/
inductive TokenType where
  | kwCreate
  | kwTable
  | kwInsert
  | kwInto
  | kwValues
  | kwSelect
  | kwFrom
  | kwWhere
  | kwInner
  | kwJoin
  | kwOn
  | kwInt
  | kwDecimal
  | kwVarchar
  | kwDatetime
  | identifier
  | intLiteral
  | floatLiteral
  | stringLiteral
  | opEq
  | opNe
  | opLt
  | opGt
  | opLe
  | opGe
  | lparen
  | rparen
  | comma
  | semicolon
  | dot
  | star
  | endOfInput
  | invalid
  deriving DecidableEq, Repr

/-- `Token` -/
structure Token where
  type : TokenType
  value : Bytes
  line : Nat
  col : Nat
  deriving DecidableEq, Repr

/-- `KEYWORDS` -/
def keywords : List (Bytes × TokenType) :=
  [(Bytes.lit "CREATE", .kwCreate), (Bytes.lit "TABLE", .kwTable),
    (Bytes.lit "INSERT", .kwInsert), (Bytes.lit "INTO", .kwInto),
    (Bytes.lit "VALUES", .kwValues), (Bytes.lit "SELECT", .kwSelect),
    (Bytes.lit "FROM", .kwFrom), (Bytes.lit "WHERE", .kwWhere),
    (Bytes.lit "INNER", .kwInner), (Bytes.lit "JOIN", .kwJoin), (Bytes.lit "ON", .kwOn),
    (Bytes.lit "INT", .kwInt), (Bytes.lit "DECIMAL", .kwDecimal),
    (Bytes.lit "VARCHAR", .kwVarchar), (Bytes.lit "DATETIME", .kwDatetime)]

/-- `Lexer`; `rest` is the input from `pos_` on. -/
structure Lexer where
  rest : Bytes
  line : Nat
  col : Nat
  error : Bytes

namespace Lexer

/-- The constructor. -/
def new (input : Bytes) : Lexer := ⟨input, 1, 1, []⟩

/-- `peek` -/
def peek (l : Lexer) : UInt8 := l.rest.headD 0

/-- `advance`, without the character it returns. -/
def advance (l : Lexer) : Lexer :=
  match l.rest with
  | [] => l
  | c :: cs =>
      if c = 10 then { l with rest := cs, line := l.line + 1, col := 1 }
      else { l with rest := cs, col := l.col + 1 }

def advanceBy (l : Lexer) : Nat → Lexer
  | 0 => l
  | n + 1 => l.advance.advanceBy n

/-- `skip_whitespace` -/
def skipWhitespace (l : Lexer) : Lexer :=
  l.advanceBy (l.rest.takeWhile Bytes.isSpace).length

/-- The loop of `read_number`: the characters, and whether one is a dot. -/
def readDigits (hasDot : Bool) : Bytes → Bytes × Bool
  | [] => ([], hasDot)
  | c :: cs =>
      if Bytes.isDigit c then
        let r := readDigits hasDot cs
        (c :: r.1, r.2)
      else if c = 46 && !hasDot then
        let r := readDigits true cs
        (c :: r.1, r.2)
      else ([], hasDot)

/-- `read_number` -/
def readNumber (l : Lexer) : Token × Lexer :=
  let (num, hasDot) := readDigits false l.rest
  let l' := l.advanceBy num.length
  (⟨if hasDot then .floatLiteral else .intLiteral, num, l'.line, l.col⟩, l')

def isWordChar (c : UInt8) : Bool := Bytes.isAlnum c || c = 95

/-- `read_identifier_or_keyword` -/
def readIdentifierOrKeyword (l : Lexer) : Token × Lexer :=
  let ident := l.rest.takeWhile isWordChar
  let l' := l.advanceBy ident.length
  match keywords.lookup (Bytes.toUpper ident) with
  | some type => (⟨type, Bytes.toUpper ident, l'.line, l.col⟩, l')
  | none => (⟨.identifier, ident, l'.line, l.col⟩, l')

/-- The loop of `read_string` and the closing quote: the characters, how far
it moved, and whether the quote was there. A backslash is skipped and the
character behind it taken as it is. -/
def readQuoted (quote : UInt8) : Bytes → Bytes × Nat × Bool
  | [] => ([], 0, false)
  | [c] => if c = quote then ([], 1, true) else if c = 92 then ([], 1, false) else ([c], 1, false)
  | c :: d :: cs =>
      if c = quote then ([], 1, true)
      else if c = 92 then
        let r := readQuoted quote cs
        (d :: r.1, r.2.1 + 2, r.2.2)
      else
        let r := readQuoted quote (d :: cs)
        (c :: r.1, r.2.1 + 1, r.2.2)

/-- `read_string` -/
def readString (l : Lexer) : Token × Lexer :=
  let quote := l.peek
  let (str, n, closed) := readQuoted quote l.advance.rest
  let l' := l.advance.advanceBy n
  let l' := if closed then l' else { l' with error := Bytes.lit "Unterminated string literal" }
  (⟨.stringLiteral, str, l'.line, l.col⟩, l')

/-- The error for a character no token starts with. -/
def unexpected (l : Lexer) (c : UInt8) (startCol : Nat) : Token × Lexer :=
  (⟨.invalid, [c], l.line, startCol⟩,
    { l with error := Bytes.lit "Unexpected character '" ++ [c] ++ Bytes.lit "' at line " ++
        Bytes.ofNat l.line ++ Bytes.lit " col " ++ Bytes.ofNat startCol })

/-- A token of one character, which was consumed. -/
def single (l : Lexer) (type : TokenType) (c : UInt8) (startCol : Nat) : Token × Lexer :=
  (⟨type, [c], l.line, startCol⟩, l)

/-- A token of that character and the next one. -/
def double (l : Lexer) (type : TokenType) (c : UInt8) (startCol : Nat) : Token × Lexer :=
  (⟨type, [c, l.peek], l.advance.line, startCol⟩, l.advance)

/-- The cases of the switch that look at no other character. -/
def symbols : List (UInt8 × TokenType) :=
  [(40, .lparen), (41, .rparen), (44, .comma), (59, .semicolon), (46, .dot), (42, .star),
    (61, .opEq)]

/-- The switch of `tokenize`, after the character `c` was consumed. -/
def readSymbol (l : Lexer) (c : UInt8) (startCol : Nat) : Token × Lexer :=
  match symbols.lookup c with
  | some type => l.single type c startCol
  | none =>
      if c = 60 then
        if l.peek = 61 then l.double .opLe c startCol
        else if l.peek = 62 then l.double .opNe c startCol
        else l.single .opLt c startCol
      else if c = 62 then
        if l.peek = 61 then l.double .opGe c startCol else l.single .opGt c startCol
      else if c = 33 then
        if l.peek = 61 then l.double .opNe c startCol else l.unexpected c startCol
      else l.unexpected c startCol

/-- One round of the loop of `tokenize`, at the character `c`. -/
def nextToken (l : Lexer) (c : UInt8) : Token × Lexer :=
  if Bytes.isDigit c then l.readNumber
  else if c = 45 && (l.rest.getD 1 0 |> Bytes.isDigit) then
    let (t, l') := l.advance.readNumber
    let value := c :: t.value
    (⟨if value.contains 46 then .floatLiteral else t.type, value, t.line, l.col⟩, l')
  else if Bytes.isAlpha c || c = 95 then l.readIdentifierOrKeyword
  else if c = 39 || c = 34 then l.readString
  else l.advance.readSymbol c l.col

/-! Every token takes at least one character, so the loop ends. -/

@[simp] theorem advance_rest (l : Lexer) : l.advance.rest = l.rest.tail := by
  rw [advance]
  split
  · next h => rw [h]; rfl
  · next h => rw [h]; split <;> rfl

@[simp] theorem advanceBy_rest (l : Lexer) (n : Nat) :
    (l.advanceBy n).rest = l.rest.drop n := by
  induction n generalizing l with
  | zero => rfl
  | succ n ih => rw [advanceBy, ih, advance_rest, List.drop_tail]

/-- What a token takes from the input, and how long its value is. -/
def Takes (l : Lexer) (r : Token × Lexer) : Prop :=
  r.2.rest.length < l.rest.length ∧ r.1.value.length + r.2.rest.length ≤ l.rest.length

theorem readDigits_le (hasDot : Bool) (w : Bytes) : (readDigits hasDot w).1.length ≤ w.length := by
  induction w generalizing hasDot with
  | nil => exact Nat.le_refl _
  | cons c cs ih =>
      rw [readDigits]
      split
      · exact Nat.succ_le_succ (ih _)
      · split
        · exact Nat.succ_le_succ (ih _)
        · exact Nat.zero_le _

theorem readQuoted_le (quote : UInt8) : ∀ w : Bytes,
    (readQuoted quote w).1.length ≤ (readQuoted quote w).2.1 ∧
      (readQuoted quote w).2.1 ≤ w.length
  | [] => ⟨Nat.le_refl _, Nat.le_refl _⟩
  | [c] => by
      rw [readQuoted]
      split
      · simp
      · split <;> simp
  | c :: d :: cs => by
      have hcs := readQuoted_le quote cs
      have hdcs := readQuoted_le quote (d :: cs)
      rw [readQuoted]
      split
      · simp
      · split
        · simp only [List.length_cons]
          omega
        · simp only [List.length_cons] at hdcs ⊢
          omega

theorem takes_readNumber (l : Lexer) :
    l.readNumber.1.value.length + l.readNumber.2.rest.length ≤ l.rest.length := by
  have := readDigits_le false l.rest
  simp only [readNumber, advanceBy_rest, List.length_drop]
  omega

theorem rest_of_peek {l : Lexer} {c : UInt8} (h : l.peek = c) (hc : c ≠ 0) :
    0 < l.rest.length := by
  cases hr : l.rest with
  | nil => exact absurd (by rw [← h, peek, hr]; rfl) hc
  | cons d ds => exact Nat.succ_pos _

theorem takes_readSymbol {l : Lexer} {c : UInt8} {cs : Bytes} (h : l.rest = c :: cs)
    (startCol : Nat) : Takes l (l.advance.readSymbol c startCol) := by
  have hlen : l.rest.length = cs.length + 1 := by rw [h]; rfl
  have hadv : l.advance.rest = cs := by rw [advance_rest, h]; rfl
  have hone : ∀ type, Takes l (l.advance.single type c startCol) := by
    intro type
    simp only [single, Takes, hadv, List.length_singleton]
    omega
  have herr : Takes l (l.advance.unexpected c startCol) := hone .invalid
  have htwo : ∀ {d : UInt8} (type : TokenType), l.advance.peek = d → d ≠ 0 →
      Takes l (l.advance.double type c startCol) := by
    intro d type hd hne
    have := rest_of_peek hd hne
    rw [hadv] at this
    simp only [double, Takes, advance_rest l.advance, hadv, List.length_tail, List.length_cons,
      List.length_nil]
    omega
  rw [readSymbol]
  split
  · exact hone _
  · split
    · split
      · next hp => exact htwo _ hp (by decide)
      · split
        · next hp => exact htwo _ hp (by decide)
        · exact hone _
    · split
      · split
        · next hp => exact htwo _ hp (by decide)
        · exact hone _
      · split
        · split
          · next hp => exact htwo _ hp (by decide)
          · exact herr
        · exact herr

theorem takes_nextToken {l : Lexer} {c : UInt8} {cs : Bytes} (h : l.rest = c :: cs) :
    Takes l (l.nextToken c) := by
  have hlen : l.rest.length = cs.length + 1 := by rw [h]; rfl
  have hadv : l.advance.rest = cs := by rw [advance_rest, h]; rfl
  rw [nextToken]
  split
  · next hd =>
      refine ⟨?_, takes_readNumber l⟩
      have hpos : 0 < (readDigits false l.rest).1.length := by
        rw [h, readDigits, if_pos hd]
        exact Nat.succ_pos _
      simp only [readNumber, advanceBy_rest, List.length_drop]
      omega
  · split
    · have := takes_readNumber l.advance
      rw [hadv] at this
      refine ⟨?_, ?_⟩
      · show l.advance.readNumber.2.rest.length < _
        omega
      · show (c :: l.advance.readNumber.1.value).length + _ ≤ _
        simp only [List.length_cons]
        omega
    · split
      · next hw =>
          have hword : isWordChar c = true := by
            rw [isWordChar, Bytes.isAlnum]
            cases ha : Bytes.isAlpha c <;> simp_all
          have hle : (l.rest.takeWhile isWordChar).length ≤ l.rest.length :=
            (List.takeWhile_sublist _).length_le
          have hpos : 0 < (l.rest.takeWhile isWordChar).length := by
            rw [h, List.takeWhile_cons_of_pos hword]
            exact Nat.succ_pos _
          rw [readIdentifierOrKeyword]
          split
          · simp only [Takes, advanceBy_rest, List.length_drop, Bytes.toUpper_length]
            omega
          · simp only [Takes, advanceBy_rest, List.length_drop]
            omega
      · split
        · have hq := readQuoted_le l.peek cs
          have hrest : l.readString.2.rest = cs.drop (readQuoted l.peek cs).2.1 := by
            simp only [readString, hadv]
            split <;> simp only [advanceBy_rest, hadv]
          have hvalue : l.readString.1.value = (readQuoted l.peek cs).1 := by
            simp only [readString, hadv]
          rw [Takes, hrest, hvalue, List.length_drop]
          omega
        · exact takes_readSymbol h l.col

theorem skipWhitespace_le (l : Lexer) : l.skipWhitespace.rest.length ≤ l.rest.length := by
  rw [skipWhitespace, advanceBy_rest, List.length_drop]
  exact Nat.sub_le _ _

/-- The loop of `tokenize`. -/
def tokenizeLoop (l : Lexer) : List Token × Lexer :=
  match h : l.skipWhitespace.rest with
  | [] => ([], l.skipWhitespace)
  | c :: cs =>
      have : (l.skipWhitespace.nextToken c).2.rest.length < l.rest.length :=
        Nat.lt_of_lt_of_le (takes_nextToken h).1 l.skipWhitespace_le
      let r := tokenizeLoop (l.skipWhitespace.nextToken c).2
      ((l.skipWhitespace.nextToken c).1 :: r.1, r.2)
termination_by l.rest.length

/-- `tokenize`: the tokens, and the error if there was one. -/
def tokenize (input : Bytes) : List Token × Bytes :=
  let (tokens, l) := tokenizeLoop (new input)
  (tokens ++ [⟨.endOfInput, [], l.line, l.col⟩], l.error)

end Lexer

end FlexQL.Ref
