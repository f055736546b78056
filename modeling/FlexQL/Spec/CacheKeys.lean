import FlexQL.Spec.Grammar
import FlexQL.Spec.Transparency

/-!
# What a query takes from its text

The tokens the parser takes for names, in the order of the text, and the token
it takes for the literal of the `WHERE`. The parser looks at the types of the
other tokens only. Past the end of the text it takes the end for a name or a
literal, and a semicolon just as well.
-/

namespace FlexQL.Spec

open Lib FlexQL.Ref FlexQL.Spec.Grammar

/-- The tokens of a column reference. -/
def refNames (ts : List Token) : List Token :=
  if kind ts.tail = .dot then [Parser.current ts, Parser.current ts.tail.tail]
  else [Parser.current ts]

/-- The tokens of the selected columns, and the tokens behind them. -/
def listNames (ts : List Token) : List Token × List Token :=
  if h : kind ts = .identifier then
    if kind (Parser.columnRef ts).2 = .comma then
      have : ts.tail.length < ts.length :=
        Parser.tail_lt fun he => absurd (h.symm.trans he) (by decide)
      have : (Parser.columnRef ts).2.length ≤ ts.tail.length := Parser.columnRef_le ts
      let r := listNames (Parser.columnRef ts).2.tail
      (refNames ts ++ r.1, r.2)
    else (refNames ts, (Parser.columnRef ts).2)
  else ([], ts)
termination_by ts.length
decreasing_by
  rw [List.length_tail]
  omega

/-- The tokens of a star, none of which is a name, or of the columns. -/
def columnNames (ts : List Token) : List Token × List Token :=
  if kind ts = .star then ([], ts.tail) else listNames ts

/-- The names of an `INNER JOIN table ON ref = ref`, and the tokens behind it. -/
def joinNames (ts : List Token) : List Token × List Token :=
  if kind ts = .kwInner then
    let name := ts.tail.tail
    let left := name.tail.tail
    let right := (Parser.columnRef left).2.tail
    (Parser.current name :: (refNames left ++ refNames right), (Parser.columnRef right).2)
  else ([], ts)

/-- The column of a `WHERE`, if there is one. -/
def whereNames (ts : List Token) : List Token :=
  if kind ts = .kwWhere then refNames ts.tail else []

/-- The literal of a `WHERE`, if there is one. -/
def whereLiteral (ts : List Token) : Option Token :=
  if kind ts = .kwWhere then
    some (Parser.current (Parser.cmpOp (Parser.columnRef ts.tail).2).2)
  else none

/-- The names of a `SELECT`, and its literal. -/
def selectWords (ts : List Token) : List Token × Option Token :=
  let columns := columnNames ts.tail
  let table := columns.2.tail
  let join := joinNames table.tail
  (columns.1 ++ Parser.current table :: (join.1 ++ whereNames join.2), whereLiteral join.2)

/-- Names of the same kind; in quotes, also with the same text up to case. -/
def SameName (t u : Token) : Prop :=
  t.type = u.type ∧ (t.type = .stringLiteral → Bytes.toUpper t.value = Bytes.toUpper u.value)

instance (t u : Token) : Decidable (SameName t u) :=
  inferInstanceAs (Decidable (_ ∧ _))

/-- The names of two queries are the same one by one, and the literals byte
for byte. -/
def SameWords (a b : List Token × Option Token) : Prop :=
  List.Forall₂ SameName a.1 b.1 ∧ a.2.map (·.value) = b.2.map (·.value)

instance (a b : List Token × Option Token) : Decidable (SameWords a b) :=
  inferInstanceAs (Decidable (_ ∧ _))

end FlexQL.Spec
