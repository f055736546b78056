import FlexQL.Lib.Listing
import FlexQL.Spec.LRUCache

/-!
# What the cache keeps beside its entries

Under the name of a table the cache lists the keys of the queries that are
taken to read it. A key is listed when its entry is made, and goes off the
list when the table is invalidated or the cache cleared. An eviction takes the
entry only.
-/

namespace FlexQL.Spec

open Lib FlexQL.Ref

/-- The number of keys in `table_entries_`. -/
def keysListed (c : LRUCache) : Nat := Listing.total c.tableEntries

/-- No more keys are listed than there are entries. -/
def Bounded (c : LRUCache) : Prop := keysListed c ≤ c.size

/-- The call does not list one more key for a cache that is full, with as many
keys listed as there are entries. -/
def Spares (c : LRUCache) : CacheCall → Prop
  | .put query _ => c.cacheMap.lookup (LRUCache.normalize query) = none →
      (LRUCache.extractTable (LRUCache.normalize query)).isSome → c.capacity ≤ c.size →
        keysListed c < c.size
  | _ => True

instance (c : LRUCache) : (call : CacheCall) → Decidable (Spares c call)
  | .put query _ =>
      inferInstanceAs (Decidable (c.cacheMap.lookup (LRUCache.normalize query) = none →
        (LRUCache.extractTable (LRUCache.normalize query)).isSome → c.capacity ≤ c.size →
          keysListed c < c.size))
  | .get _ => .isTrue trivial
  | .invalidateTable _ => .isTrue trivial
  | .clear => .isTrue trivial

end FlexQL.Spec
