import FlexQL.Lib.Outcome
import FlexQL.Ref.Common
import Mathlib.Data.Finmap
import Mathlib.Data.List.DropRight

/-!
# The query cache (`lru_cache.h`, `lru_cache.cpp`)

A list of results, most recently used first, and a map from normalized
queries to the nodes of the list. An iterator is the number of a node; using
one whose node is gone is undefined. A second map guesses from the text of a
query which table it reads.
-/

namespace FlexQL.Ref

open Lib

/-- `LRUCache::CachedResult` -/
structure CachedResult where
  columnNames : List Bytes
  rows : List Row
  deriving DecidableEq, Repr

/-- A node of `lru_list_`. -/
structure LRUNode where
  id : Nat
  key : Bytes
  result : CachedResult

/-- `LRUCache` -/
structure LRUCache where
  capacity : Nat
  lruList : List LRUNode
  cacheMap : Finmap fun _ : Bytes => Nat
  tableEntries : Finmap fun _ : Bytes => List Bytes
  hits : Nat
  misses : Nat
  nextId : Nat

namespace LRUCache

/-- The constructor. -/
def new (capacity : Nat) : LRUCache := ⟨capacity, [], ∅, ∅, 0, 0, 0⟩

/-- A character of the query; the state is the text so far and `in_space`. -/
def normalizeStep (s : Bytes × Bool) (c : UInt8) : Bytes × Bool :=
  if Bytes.isSpace c then
    if !s.2 && !s.1.isEmpty then (s.1 ++ [32], true) else s
  else (s.1 ++ [Bytes.upperChar c], false)

/-- `normalize`: one blank for many, upper case, no trailing blank and then no
trailing semicolons. -/
def normalize (query : Bytes) : Bytes :=
  let result := (query.foldl normalizeStep ([], false)).1
  let result := if result.getLast? = some 32 then result.dropLast else result
  result.rdropWhile (· = 59)

/-- The node behind an iterator moved to the front, with a new result if
there is one. -/
def touch (c : LRUCache) (id : Nat) (update : CachedResult → CachedResult) :
    Outcome (LRUCache × CachedResult) :=
  match c.lruList.find? (·.id = id) with
  | none => .error .undefined
  | some node =>
      let node := { node with result := update node.result }
      .ok ({ c with lruList := node :: c.lruList.filter (·.id ≠ id) }, node.result)

/-- `get`; `none` is a miss. -/
def get (c : LRUCache) (query : Bytes) : Outcome (LRUCache × Option CachedResult) :=
  match c.cacheMap.lookup (normalize query) with
  | none => .ok ({ c with misses := c.misses + 1 }, none)
  | some id => do
      let (c, result) ← c.touch id fun r => r
      .ok ({ c with hits := c.hits + 1 }, some result)

/-- What follows the first occurrence of a text in another. -/
def afterFirst (text : Bytes) : Bytes → Option Bytes
  | [] => if text.isEmpty then some [] else none
  | c :: cs =>
      if text.isPrefixOf (c :: cs) then some ((c :: cs).drop text.length)
      else afterFirst text cs

/-- The table a normalized query is taken to read: what follows the first
`FROM `, up to one of ` ;,)`. -/
def extractTable (key : Bytes) : Option Bytes :=
  (afterFirst (Bytes.lit "FROM ") key).map
    (·.takeWhile fun c => !(Bytes.lit " ;,)").contains c)

/-- The least recently used entry goes when the cache is full. -/
def evict (c : LRUCache) : Outcome LRUCache :=
  if c.capacity ≤ c.cacheMap.keys.card then
    match c.lruList.getLast? with
    | none => .error .undefined
    | some back => .ok { c with
        cacheMap := c.cacheMap.erase back.key
        lruList := c.lruList.dropLast }
  else .ok c

/-- `put` -/
def put (c : LRUCache) (query : Bytes) (result : CachedResult) : Outcome LRUCache :=
  let key := normalize query
  match c.cacheMap.lookup key with
  | some id => do
      let (c, _) ← c.touch id fun _ => result
      .ok c
  | none => do
      let c ← c.evict
      .ok { c with
        lruList := ⟨c.nextId, key, result⟩ :: c.lruList
        cacheMap := c.cacheMap.insert key c.nextId
        nextId := c.nextId + 1
        tableEntries := match extractTable key with
          | none => c.tableEntries
          | some table => c.tableEntries.insert table
              ((c.tableEntries.lookup table).getD [] ++ [key]) }

/-- The loop of `invalidate_table` over the keys listed for the table. -/
def invalidateKeys (c : LRUCache) : List Bytes → Outcome LRUCache
  | [] => .ok c
  | key :: keys =>
      match c.cacheMap.lookup key with
      | none => c.invalidateKeys keys
      | some id =>
          if c.lruList.any (·.id = id) then
            { c with
              lruList := c.lruList.filter (·.id ≠ id)
              cacheMap := c.cacheMap.erase key }.invalidateKeys keys
          else .error .undefined

/-- `invalidate_table` -/
def invalidateTable (c : LRUCache) (tableName : Bytes) : Outcome LRUCache :=
  let table := Bytes.toUpper tableName
  match c.tableEntries.lookup table with
  | none => .ok c
  | some keys => do
      let c ← c.invalidateKeys keys
      .ok { c with tableEntries := c.tableEntries.erase table }

/-- `clear` -/
def clear (c : LRUCache) : LRUCache :=
  { c with lruList := [], cacheMap := ∅, tableEntries := ∅ }

/-- `size` -/
def size (c : LRUCache) : Nat := c.cacheMap.keys.card

end LRUCache

end FlexQL.Ref
