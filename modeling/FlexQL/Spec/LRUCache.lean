import FlexQL.Lib.Actions
import FlexQL.Lib.Recency
import FlexQL.Ref.LRUCache

/-!
# What the query cache is for

A bounded recency list of results under normalized queries. Invalidating a
table removes the results of the queries that are taken to read it.
-/

namespace FlexQL.Spec

open Lib FlexQL.Ref

inductive CacheCall where
  | get (query : Bytes)
  | put (query : Bytes) (result : CachedResult)
  | invalidateTable (tableName : Bytes)
  | clear

/-- A call of the cache; only `get` has an answer. -/
def cacheCall (c : LRUCache) : CacheCall → Outcome (LRUCache × Option (Option CachedResult))
  | .get query => do
      let (c, result) ← c.get query
      .ok (c, some result)
  | .put query result => do
      let c ← c.put query result
      .ok (c, none)
  | .invalidateTable tableName => do
      let c ← c.invalidateTable tableName
      .ok (c, none)
  | .clear => .ok (c.clear, none)

abbrev Results := Recency Bytes CachedResult

/-- The queries an invalidation is for. -/
def takenToRead (tableName : Bytes) (key : Bytes) : Bool :=
  LRUCache.extractTable key = some (Bytes.toUpper tableName)

/-- The same calls on the recency list. -/
def recencyCall (s : Results) : CacheCall → Results × Option (Option CachedResult)
  | .get query =>
      let (s, result) := s.get (LRUCache.normalize query)
      (s, some result)
  | .put query result => (s.put (LRUCache.normalize query) result, none)
  | .invalidateTable tableName => (s.removeWhere (takenToRead tableName), none)
  | .clear => (s.removeWhere fun _ => true, none)

def isHit (answer : Option (Option CachedResult)) : Bool := answer matches some (some _)

def isMiss (answer : Option (Option CachedResult)) : Bool := answer matches some none

end FlexQL.Spec
