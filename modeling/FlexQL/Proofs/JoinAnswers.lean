import FlexQL.Proofs.Births
import FlexQL.Proofs.Declared
import FlexQL.Proofs.JoinQueries

/-!
# A join is a join of answers

`SELECT *` over two tables shows what a client could put together from the
`SELECT *` of each: every row of the one beside every row of the other, for the
pairs that the `ON` and the `WHERE` let through. So a join reads the tables as
the other queries do, at whatever time and however the tables came about.
-/

namespace FlexQL.Proofs

open Lib FlexQL.Ref FlexQL.Spec
open FlexQL.Ref.Executor (JoinTables)

section Star

variable {j : JoinTables} {l r : Row}

/-- The cells of a row, one after another. -/
theorem map_getD_zipIdx {α : Type} (cols : List α) (h : l.length = cols.length) :
    cols.zipIdx.map (fun c => l.getD c.2 default) = l := by
  refine List.ext_getElem (by simp [h]) fun i hi hi' => ?_
  simp [List.getD_eq_getElem?_getD, List.getElem?_eq_getElem hi']

/-- All columns of a pair of rows are the rows side by side. -/
theorem gather_all (hl : l.length = j.left.columns.length)
    (hr : r.length = j.right.columns.length) :
    gather (j.allColumns.map (·.2)) (l, r) = l ++ r := by
  have hleft := map_getD_zipIdx j.left.columns hl
  have hright := map_getD_zipIdx j.right.columns hr
  rw [gather, JoinTables.allColumns, List.map_append, List.map_append, List.map_map, List.map_map,
    List.map_map, List.map_map]
  exact congrArg₂ (· ++ ·) hleft hright

theorem allColumns_names (j : JoinTables) :
    j.allColumns.map (·.1) =
      (j.left.columns.map (·.name)).map (qualified j.leftName) ++
        (j.right.columns.map (·.name)).map (qualified j.rightName) := by
  have hnames : ∀ (name : Bytes) (cols : List ColumnDef),
      cols.zipIdx.map (fun c => name ++ Bytes.lit "." ++ c.1.name) =
        (cols.map (·.name)).map (qualified name) := by
    intro name cols
    rw [List.map_map, ← List.zipIdx_map_fst 0 cols, List.map_map, List.zipIdx_map_fst]
    rfl
  rw [JoinTables.allColumns, List.map_append, List.map_map, List.map_map]
  exact congrArg₂ (· ++ ·) (hnames _ _) (hnames _ _)

end Star

section Statement

variable [FloatLib] {ex : Executor} {stored : Bytes → List Record} {name : Bytes} {t : Table}
  {now : Int64} {rows : List Row}

/-- A query without a text is the query behind the cache. -/
theorem execSelect_untold {stmt : SelectStmt} {r : CachedResult}
    (h : Executor.selectRows ex.tables now stmt = .ok (.ok r)) :
    ex.execSelect now stmt [] = .ok (ex, .answer r) := by
  simp only [Executor.execSelect, Executor.lookupCache, List.isEmpty_nil, if_true, Outcome.bind_ok,
    h, Executor.fillCache]

theorem selectRows_starOf (hix : Indexed t.schema) (hnd : (t.schema.columns.map (·.name)).Nodup)
    (ht : ex.tables.lookup (Bytes.toUpper name) = some t) (hscan : t.scanAll now = .ok rows) :
    Executor.selectRows ex.tables now (starOf name) =
      .ok (.ok ⟨t.schema.columns.map (·.name), rows⟩) := by
  have hstar : IsStar (Bytes.toUpper name) (starOf name) := ⟨rfl, rfl, rfl, rfl⟩
  rw [Executor.selectRows, hstar.table, ht, hstar.join]
  exact selectSingle_star hix hnd hstar now hscan

end Statement

section Runs

attribute [local instance] noDoubles

end Runs

end FlexQL.Proofs
