import FlexQL.Spec.LRUCache
import FlexQL.Spec.Transparency

/-!
# Which entries an invalidation is for

The cache knows a query only by its text. It takes the name behind the first
`FROM ` for the table the query reads, and lists the key under it; nothing is
taken off that list when an entry is evicted.
-/

namespace FlexQL.Spec

open Lib FlexQL.Ref

/-- The characters that end a table name in a key. -/
def nameEnds : Bytes := Bytes.lit " ;,)"

/-- `name` stands in the key behind the first `FROM ` and up to the first of
` ;,)`, or to the end. -/
def FollowsFrom (key name : Bytes) : Prop :=
  ∃ before rest, key = before ++ (Bytes.lit "FROM " ++ (name ++ rest)) ∧
    (∀ b r, key = b ++ (Bytes.lit "FROM " ++ r) → before.length ≤ b.length) ∧
    (∀ c ∈ name, c ∉ nameEnds) ∧ ∀ c ∈ rest.head?, c ∈ nameEnds

/-- A statement added a row to the table. -/
def RowAdded (ex ex' : Executor) (name : Bytes) : Prop :=
  ∃ t t', ex.tables.lookup name = some t ∧ ex'.tables.lookup name = some t' ∧
    t.rows.length < t'.rows.length

end FlexQL.Spec
