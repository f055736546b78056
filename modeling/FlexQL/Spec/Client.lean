import FlexQL.Ref.Client
import FlexQL.Ref.Server

/-!
# What a client is shown of an answer

The callback is to be called once for each row of an answer, in order, with
the texts of its values and the names of the columns.
-/

namespace FlexQL.Spec

open Lib FlexQL.Ref

/-- The name of a column: an identifier, or two with a dot between them. -/
def IsColumnName (name : Bytes) : Prop :=
  name ≠ [] ∧ ∀ c ∈ name, Bytes.isAlnum c = true ∨ c = 95 ∨ c = 46

instance (name : Bytes) : Decidable (IsColumnName name) :=
  decidable_of_iff (name ≠ [] ∧ name.all fun c => Bytes.isAlnum c || c = 95 || c = 46)
    (by simp [IsColumnName, or_assoc])

/-- One call after another, until the callback asks to stop. -/
def invoke {σ : Type} (callback : Client.Callback σ) (colNames : List Bytes) :
    List (List Bytes) → σ → σ
  | [], arg => arg
  | vals :: rest, arg =>
      let (arg, go) := callback arg vals colNames
      if go then invoke callback colNames rest arg else arg

/-- A `SELECT` that succeeded: it has columns, and a value in each row for
each of them. -/
structure IsAnswer (r : QueryResult) : Prop where
  success : r.success = true
  columns : r.columnNames ≠ []
  names : ∀ name ∈ r.columnNames, IsColumnName name
  rows : ∀ row ∈ r.rows, row.length = r.columnNames.length

section Values

variable [FloatLib]

/-- The rows of an answer as they are to be shown. -/
def shownRows (r : QueryResult) : List (List Bytes) := r.rows.map fun row => row.map Value.toString

end Values

/-- The text can be shown: it has no separator in it, and no zero byte. -/
def Plain (text : Bytes) : Prop := 9 ∉ text ∧ 10 ∉ text ∧ 0 ∉ text

instance (text : Bytes) : Decidable (Plain text) := inferInstanceAs (Decidable (_ ∧ _ ∧ _))

variable [FloatLib] in
/-- The rows can be shown: their texts are plain, and one that is alone in its
row is not empty. -/
structure Showable (r : QueryResult) : Prop where
  plain : ∀ row ∈ shownRows r, ∀ text ∈ row, Plain text
  filled : r.columnNames.length = 1 → ∀ row ∈ shownRows r, ∀ text ∈ row, text ≠ []

end FlexQL.Spec
