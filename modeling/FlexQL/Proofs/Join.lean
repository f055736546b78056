import FlexQL.Lib.Buckets
import FlexQL.Proofs.Queries
import FlexQL.Spec.Join

/-!
# The two loops of a join

The nested loops go through all pairs of rows and keep those the operator
holds of. The hash join groups the right rows by their value and goes through
one group for each left row; a group is a filter of the right rows in order,
so the pairs are the same and so is their order. What is done with a pair does
not matter for this.
-/

namespace FlexQL.Proofs

open Lib FlexQL.Ref FlexQL.Spec
open FlexQL.Ref.Executor (Side JoinTables forRows hashPush hashRows hashJoin nestedLoopJoin cell)
open FlexQL.Ref.Executor.JoinTables (pick)

/-! ## Loops over rows -/

section Loops

variable {α β : Type} {f g : α → Outcome (List Row)} {l l' : List α}

theorem forRows_congr (h : ∀ a ∈ l, f a = g a) : forRows f l = forRows g l := by
  induction l with
  | nil => rfl
  | cons a l ih =>
      rw [forRows, forRows, h a List.mem_cons_self, ih fun b hb => h b (List.mem_cons_of_mem _ hb)]

theorem forRows_append :
    forRows f (l ++ l') = (do
      let first ← forRows f l
      let rest ← forRows f l'
      .ok (first ++ rest)) := by
  induction l with
  | nil =>
      rw [List.nil_append, forRows, Outcome.bind_ok]
      cases forRows f l' with
      | error e => rfl
      | ok rest => rfl
  | cons a l ih =>
      rw [List.cons_append, forRows, forRows, ih]
      cases f a with
      | error e => rfl
      | ok first =>
          cases forRows f l with
          | error e => rfl
          | ok rest =>
              cases forRows f l' with
              | error e => rfl
              | ok rest' => simp only [Outcome.bind_ok, List.append_assoc]

theorem forRows_map (h : β → α) (l : List β) :
    forRows f (l.map h) = forRows (fun b => f (h b)) l := by
  induction l with
  | nil => rfl
  | cons b l ih => rw [List.map_cons, forRows, forRows, ih]

theorem forRows_filter (p : α → Bool) :
    forRows f (l.filter p) = forRows (fun a => if p a then f a else .ok []) l := by
  induction l with
  | nil => rfl
  | cons a l ih =>
      rw [List.filter_cons, forRows]
      split
      · rw [forRows, ih]
      · rw [ih, Outcome.bind_ok]
        cases forRows (fun a => if p a then f a else .ok []) l with
        | error e => rfl
        | ok rest => rfl

/-- A loop in a loop is one over the pairs. -/
theorem forRows_product {f : α × β → Outcome (List Row)} {r : List β} :
    forRows (fun a => forRows (fun b => f (a, b)) r) l = forRows f (l ×ˢ r) := by
  induction l with
  | nil => rfl
  | cons a l ih => rw [List.product_cons, forRows_append, forRows_map, forRows, ih]

/-- A loop whose rounds return one row or none. -/
theorem forRows_ok {p : α → Bool} {g : α → Row}
    (h : ∀ a ∈ l, f a = .ok (if p a then [g a] else [])) :
    forRows f l = .ok ((l.filter p).map g) := by
  induction l with
  | nil => rfl
  | cons a l ih =>
      rw [forRows, h a List.mem_cons_self, Outcome.bind_ok,
        ih fun b hb => h b (List.mem_cons_of_mem _ hb), Outcome.bind_ok, List.filter_cons]
      split
      · rfl
      · rfl

end Loops

/-! ## Values as keys -/

theorem double_partialEquiv : Buckets.PartialEquiv Double.eq where
  symm a b h := by
    simp only [Double.eq, Bool.and_eq_true, decide_eq_true_eq] at h ⊢
    exact ⟨⟨h.1.2, h.1.1⟩, h.2.symm⟩
  trans a b c h h' := by
    simp only [Double.eq, Bool.and_eq_true, decide_eq_true_eq] at h h' ⊢
    exact ⟨⟨h.1.1, h'.1.2⟩, h.2.trans h'.2⟩

/-- The members that a type selects are equal. -/
def Tied (a b : Value) : DataType → Prop
  | .int => a.intVal = b.intVal
  | .decimal => Double.eq a.decVal b.decVal = true
  | .varchar => a.strVal = b.strVal
  | .datetime => a.dtVal = b.dtVal
  | .unknown _ => False

theorem value_eq_iff {a b : Value} : a.eq b = true ↔ a.type = b.type ∧ Tied a b a.type := by
  rw [Value.eq]
  split
  · next h => exact iff_of_false (by simp) fun hab => h hab.1
  · next h =>
      rw [and_iff_right (not_not.mp h)]
      cases a.type <;> simp [Tied]

theorem tied_symm {a b : Value} {ty : DataType} (h : Tied a b ty) : Tied b a ty := by
  cases ty with
  | int | varchar | datetime => exact h.symm
  | decimal => exact double_partialEquiv.symm _ _ h
  | unknown code => exact h.elim

theorem tied_trans {a b c : Value} {ty : DataType} (h : Tied a b ty) (h' : Tied b c ty) :
    Tied a c ty := by
  cases ty with
  | int | varchar | datetime => exact h.trans h'
  | decimal => exact double_partialEquiv.trans _ _ _ h h'
  | unknown code => exact h.elim

/-- Values of one type that compare equal; a NaN is equal to nothing. -/
theorem value_partialEquiv : Buckets.PartialEquiv Value.eq where
  symm a b h := by
    obtain ⟨ht, h⟩ := value_eq_iff.mp h
    exact value_eq_iff.mpr ⟨ht.symm, ht ▸ tied_symm h⟩
  trans a b c h h' := by
    obtain ⟨ht, h⟩ := value_eq_iff.mp h
    obtain ⟨ht', h'⟩ := value_eq_iff.mp h'
    rw [← ht] at h'
    exact value_eq_iff.mpr ⟨ht.trans ht', tied_trans h h'⟩

/-! ## The pairs -/

section Pairs

variable {left right : List Row} {leftIdx rightIdx : Nat}
  {emit : Row → Row → Outcome (List Row)}

theorem cell_of_lt {row : Row} {i : Nat} (h : i < row.length) :
    cell row i = .ok (row.getD i default) := by
  rw [cell_eq_ok, List.getD_eq_getElem?_getD, List.getElem?_eq_getElem h, Option.getD_some]

/-- The nested loops go through the pairs that the operator holds of. -/
theorem nestedLoopJoin_pairs (hl : ∀ l ∈ left, leftIdx < l.length)
    (hr : ∀ r ∈ right, rightIdx < r.length) (op : CmpOp) :
    nestedLoopJoin emit op leftIdx rightIdx left right =
      forRows (fun p => emit p.1 p.2) ((left ×ˢ right).filter (onHolds op leftIdx rightIdx)) := by
  rw [forRows_filter, ← forRows_product, nestedLoopJoin]
  refine forRows_congr fun l hmem => ?_
  rw [cell_of_lt (hl l hmem), Outcome.bind_ok]
  refine forRows_congr fun r hmem' => ?_
  rw [cell_of_lt (hr r hmem'), Outcome.bind_ok]
  rfl

theorem hashPush_eq (key : Value) (i : Nat) (index : List (Value × List Nat)) :
    hashPush key i index = Buckets.push Value.eq key i index := by
  induction index with
  | nil => rfl
  | cons e es ih => rw [hashPush, Buckets.push, ih]

theorem hashRows_eq {rows : List Row} (hr : ∀ r ∈ rows, rightIdx < r.length) (i : Nat)
    (index : List (Value × List Nat)) :
    hashRows rightIdx rows i index =
      .ok (((rows.zipIdx i).map fun r => (r.1.getD rightIdx default, r.2)).foldl
        (fun es e => Buckets.push Value.eq e.1 e.2 es) index) := by
  induction rows generalizing i index with
  | nil => rfl
  | cons row rows ih =>
      rw [hashRows, cell_of_lt (hr row List.mem_cons_self), Outcome.bind_ok, hashPush_eq,
        ih fun r hmem => hr r (List.mem_cons_of_mem _ hmem)]
      rfl

/-- The loop over the positions of a group is one over its rows. -/
theorem forRows_positions (p : Row → Bool) (f : Row → Outcome (List Row)) :
    forRows (fun i => do
      let row ← cell right i
      f row) ((right.zipIdx.filter fun r => p r.1).map (·.2)) = forRows f (right.filter p) := by
  have hrows : right.filter p = (right.zipIdx.filter fun r => p r.1).map (·.1) := by
    conv_lhs => rw [← List.zipIdx_map_fst 0 right, List.filter_map]
    rfl
  rw [hrows, forRows_map, forRows_map]
  refine forRows_congr fun r hr => ?_
  have hget := List.mem_zipIdx_iff_getElem?.mp (List.mem_of_mem_filter hr)
  rw [cell, hget, Outcome.bind_ok]

/-- The loop over what the index has for a key. -/
theorem forRows_probe (key : Value) (f : Nat → Outcome (List Row))
    (index : List (Value × List Nat)) :
    (match index.find? fun e => key.eq e.1 with
      | none => .ok []
      | some e => forRows f e.2) = forRows f (Buckets.probe Value.eq key index) := by
  rw [Buckets.probe]
  cases index.find? fun e => key.eq e.1 with
  | none => rfl
  | some e => rfl

/-- So does the hash join with `=`. -/
theorem hashJoin_pairs (hl : ∀ l ∈ left, leftIdx < l.length)
    (hr : ∀ r ∈ right, rightIdx < r.length) :
    hashJoin emit leftIdx rightIdx left right =
      forRows (fun p => emit p.1 p.2) ((left ×ˢ right).filter (onHolds .eq leftIdx rightIdx)) := by
  rw [← nestedLoopJoin_pairs hl hr, hashJoin, hashRows_eq hr, Outcome.bind_ok, nestedLoopJoin]
  refine forRows_congr fun l hmem => ?_
  rw [cell_of_lt (hl l hmem), Outcome.bind_ok, Outcome.bind_ok]
  refine (forRows_probe _ _ _).trans ?_
  rw [Buckets.probe_foldl value_partialEquiv, Buckets.probe, List.find?_nil, List.nil_append,
    List.filter_map, List.map_map]
  refine (forRows_positions (fun r => (l.getD leftIdx default).eq (r.getD rightIdx default))
    (emit l)).trans ?_
  rw [forRows_filter]
  refine forRows_congr fun r hmem' => ?_
  rw [cell_of_lt (hr r hmem'), Outcome.bind_ok]
  rfl

end Pairs

/-! ## What is done with a pair -/

section Emit

variable [FloatLib] {j : JoinTables} {leftRow rightRow : Row}

/-- A `WHERE` whose column is not there, or whose literal is not one of its
type, lets every pair through. -/
theorem allows_eq (hl : Indexed j.left) (hr : Indexed j.right) (hw : Widths j leftRow rightRow)
    (whereClause : Option WhereClause) :
    j.allows whereClause leftRow rightRow = .ok (whereHolds j whereClause (leftRow, rightRow)) := by
  cases whereClause with
  | none => rfl
  | some w =>
      rw [JoinTables.allows, JoinTables.passes, whereHolds, joinBound]
      cases hfind : j.find (Bytes.toUpper w.column.table) (Bytes.toUpper w.column.column) with
      | none => rfl
      | some src =>
          obtain ⟨side, i⟩ := src
          have hlt : i < (pick side j.left j.right).columns.length := find_sourced hl hr hfind
          have hcol := List.getElem?_eq_getElem hlt
          simp only [cell, hcol, Outcome.bind_ok, Option.bind_eq_bind, Option.bind_some]
          cases Executor.parseLiteral w.literal (pick side j.left j.right).columns[i].type with
          | error e => rfl
          | ok v =>
              have hcell : cell (pick side leftRow rightRow) i = _ := cell_of_lt (by rwa [hw.pick])
              rw [cell] at hcell
              simp only [hcell, Outcome.bind_ok]
              rfl

theorem emit_eq (hl : Indexed j.left) (hr : Indexed j.right) (hw : Widths j leftRow rightRow)
    (whereClause : Option WhereClause) {sources : List (Side × Nat)}
    (hs : ∀ src ∈ sources, Sourced j src) :
    j.emit whereClause sources leftRow rightRow =
      .ok (if whereHolds j whereClause (leftRow, rightRow) then
        [gather sources (leftRow, rightRow)] else []) := by
  have hout : sources.mapM (fun src => cell (pick src.1 leftRow rightRow) src.2) =
      .ok (gather sources (leftRow, rightRow)) := by
    rw [Outcome.mapM_eq_ok, gather, List.forall₂_map_right_iff, List.forall₂_same]
    intro src hsrc
    refine cell_of_lt ?_
    rw [hw.pick]
    exact hs src hsrc
  rw [JoinTables.emit, allows_eq hl hr hw, Outcome.bind_ok]
  split
  · rw [hout, Outcome.bind_ok]
  · rfl

/-- The rows of a join are gathered from its pairs. -/
theorem joinRows_eq (hl : Indexed j.left) (hr : Indexed j.right) {left right : List Row}
    (hleft : ∀ l ∈ left, l.length = j.left.columns.length)
    (hright : ∀ r ∈ right, r.length = j.right.columns.length) {leftIdx rightIdx : Nat}
    (hi : leftIdx < j.left.columns.length) (hk : rightIdx < j.right.columns.length)
    (whereClause : Option WhereClause) {sources : List (Side × Nat)}
    (hs : ∀ src ∈ sources, Sourced j src) (op : AstCmpOp) :
    Executor.joinRows (j.emit whereClause sources) op leftIdx rightIdx left right =
      .ok ((joinPairs j whereClause (Executor.convertOp op) leftIdx rightIdx left right).map
        (gather sources)) := by
  have hl' : ∀ l ∈ left, leftIdx < l.length := fun l hmem => by rwa [hleft l hmem]
  have hr' : ∀ r ∈ right, rightIdx < r.length := fun r hmem => by rwa [hright r hmem]
  have hpairs : Executor.joinRows (j.emit whereClause sources) op leftIdx rightIdx left right =
      forRows (fun p => j.emit whereClause sources p.1 p.2)
        ((left ×ˢ right).filter (onHolds (Executor.convertOp op) leftIdx rightIdx)) := by
    rw [Executor.joinRows]
    split
    · next hop => rw [hop]; exact hashJoin_pairs hl' hr'
    · exact nestedLoopJoin_pairs hl' hr' _
  rw [hpairs, joinPairs]
  refine forRows_ok fun p hp => ?_
  obtain ⟨hpl, hpr⟩ := List.mem_product.mp (List.mem_of_mem_filter hp)
  exact emit_eq hl hr ⟨hleft _ hpl, hright _ hpr⟩ whereClause hs

end Emit

/-! ## The hash join is a nested loop join -/

/-- Whatever the schemas, the rows, the columns of the `ON`, the `WHERE` and
the output columns are: the two joins give the same rows in the same order. -/
theorem hashJoin_eq_nestedLoopJoin [FloatLib] (j : JoinTables)
    (hl : ∃ cols, j.left = Schema.empty.addColumns cols)
    (hr : ∃ cols, j.right = Schema.empty.addColumns cols) (left right : List Row)
    (hleft : ∀ l ∈ left, l.length = j.left.columns.length)
    (hright : ∀ r ∈ right, r.length = j.right.columns.length) (leftIdx rightIdx : Nat)
    (hi : leftIdx < j.left.columns.length) (hk : rightIdx < j.right.columns.length)
    (whereClause : Option WhereClause) (sources : List (Side × Nat))
    (hs : ∀ src ∈ sources, src.2 < (pick src.1 j.left j.right).columns.length) :
    ∃ rows,
      hashJoin (j.emit whereClause sources) leftIdx rightIdx left right = .ok rows ∧
      nestedLoopJoin (j.emit whereClause sources) .eq leftIdx rightIdx left right = .ok rows := by
  have hrun := joinRows_eq (indexed_of_built hl) (indexed_of_built hr) hleft hright hi hk
    whereClause hs .eq
  have hhash := @hashJoin_pairs left right leftIdx rightIdx (j.emit whereClause sources)
    (fun l hmem => by rwa [hleft l hmem]) (fun r hmem => by rwa [hright r hmem])
  have hloop := @nestedLoopJoin_pairs left right leftIdx rightIdx (j.emit whereClause sources)
    (fun l hmem => by rwa [hleft l hmem]) (fun r hmem => by rwa [hright r hmem]) .eq
  rw [Executor.joinRows, if_pos rfl] at hrun
  exact ⟨_, hrun, hloop.trans (hhash.symm.trans hrun)⟩

section Runs

attribute [local instance] noDoubles

/-- One column of doubles. -/
def doubleSchema : Schema := Schema.empty.addColumns [⟨Bytes.lit "X", .decimal, 0⟩]

/-- Zero and minus zero are joined with one another, a NaN with nothing. -/
theorem hashJoin_eq_nestedLoopJoin_zeros :
    let j : JoinTables := ⟨Bytes.lit "A", doubleSchema, Bytes.lit "B", doubleSchema⟩
    let left : List Row := [[.decimal 0], [.decimal 0x7FF8000000000000]]
    let right : List Row := [[.decimal 0x8000000000000000], [.decimal 0x7FF8000000000000],
      [.decimal 0]]
    ∃ rows, hashJoin (j.emit none [(.right, 0)]) 0 0 left right = .ok rows ∧
      nestedLoopJoin (j.emit none [(.right, 0)]) .eq 0 0 left right = .ok rows ∧
      rows = [[.decimal 0x8000000000000000], [.decimal 0]] := by
  intro j left right
  obtain ⟨rows, hhash, hloop⟩ := hashJoin_eq_nestedLoopJoin j ⟨_, rfl⟩ ⟨_, rfl⟩ left right
    (by decide) (by decide) 0 0 (by decide) (by decide) none [(.right, 0)] (by decide)
  refine ⟨rows, hhash, hloop, ?_⟩
  have hrun : hashJoin (j.emit none [(.right, 0)]) 0 0 left right =
      .ok [[.decimal 0x8000000000000000], [.decimal 0]] := by decide +kernel
  exact Except.ok.inj (hhash.symm.trans hrun)

end Runs

end FlexQL.Proofs
