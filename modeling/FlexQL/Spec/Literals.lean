import FlexQL.Lib.Numerals
import FlexQL.Ref.Executor

/-!
# Numbers as they are written

A literal of an `INT` or a `DATETIME` column is written as a decimal integer.
`AsWritten` is a value that is the number its literal says; `Unpadded` are the
literals that do not have such a number in them and something else besides.
-/

namespace FlexQL.Spec

open Lib FlexQL.Ref

/-- The types whose values are integers. -/
def Integral (type : DataType) : Prop := type = .int ∨ type = .datetime

/-- The numbers of a type: 32 bits for `INT`, 64 for `DATETIME`. -/
def InRange : DataType → Int → Prop
  | .int, n => -2 ^ 31 ≤ n ∧ n < 2 ^ 31
  | .datetime, n => -2 ^ 63 ≤ n ∧ n < 2 ^ 63
  | _, _ => False

def numberOf : Value → Option Int
  | .int v => some v.toInt
  | .datetime v => some v.toInt
  | _ => none

/-- The value is the number that the whole literal denotes. -/
def AsWritten (literal : Bytes) (v : Value) : Prop :=
  ∃ n, numberOf v = some n ∧ Bytes.Decimal literal n

/-- No number of the type stands in the literal with something around it. -/
def Unpadded (literal : Bytes) (type : DataType) : Prop :=
  ∀ n, Bytes.Padded literal n → ¬ InRange type n

/-- The literal is taken just when it is a number of the type, and as that
number. -/
def TakenAsWritten [FloatLib] (literal : Bytes) (type : DataType) : Prop :=
  ∀ n, (∃ v, Executor.parseLiteral literal type = .ok v ∧ numberOf v = some n) ↔
    Bytes.Decimal literal n ∧ InRange type n

end FlexQL.Spec
