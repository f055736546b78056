import FlexQL.Proofs.Select
import FlexQL.Spec.Transparency

/-!
# A query returns, and what its answer is made of

Whatever the keys of a table are, its index can be scanned: the leaves are on
a chain that ends. A scan calls back with row ids and the callback passes over
the rows that cannot be seen, so every row it collects is one that can. With
that a query runs through to its answer or its error, and every row of the
answer is put together from a visible row of each table it reads.
-/

namespace FlexQL.Proofs

open Lib FlexQL.Ref FlexQL.Spec

/-! ## Scans of the index -/

section Scans

variable {t : BPTree} {r : NodeId} {ht : NodeId → Nat} {l : List NodeId} {σ : Type}
  {verdict : Value → BPTree.Verdict} {cb : BPTree.RangeCallback σ} {Q : σ → Prop}

/-- What the callback keeps, a scan keeps. -/
theorem visit_keeps (hcb : ∀ s i, Q s → Q (cb s i).1) (es : List (Value × Nat)) {s : σ}
    (hs : Q s) : Q (visit verdict cb es s).1 := by
  induction es generalizing s with
  | nil => exact hs
  | cons e es ih =>
      rw [visit]
      cases verdict e.1 with
      | stop => exact hs
      | skip => exact ih hs
      | visit =>
          have hnext := hcb s e.2 hs
          generalize cb s e.2 = c at hnext
          obtain ⟨s', b⟩ := c
          cases b with
          | false => exact hnext
          | true => exact ih hnext

/-- A leaf as a slot without bounds. -/
def bare (p : NodeId) : Slot := ⟨p, none, none⟩

theorem ids_bare (l : List NodeId) : ids (l.map bare) = l := by
  rw [ids, List.map_map]
  exact List.map_id l

theorem Scannable.length_le (h : Scannable t r ht l) : l.length ≤ t.pool.size := by
  have hsub := (h.chain.nodup.subperm fun p hp =>
    List.mem_range.mpr ((h.chain.mem p).mp hp).1).length_le
  simpa using hsub

/-- The walk along the chain from a leaf on. -/
theorem Scannable.scanChain (h : Scannable t r ht l) (hcb : ∀ s i, Q s → Q (cb s i).1)
    {a b : List NodeId} (hl : l = a ++ b) {fuel : Nat} (hf : b.length ≤ fuel) {s : σ} (hs : Q s) :
    ∃ s', BPTree.scanChain t.pool verdict cb fuel b.head? 0 s = .ok s' ∧ Q s' := by
  obtain ⟨p, hlinked⟩ := Linked.suffix (hl ▸ h.chain.linked)
  have hmem : ∀ c ∈ b.map bare, c.id < t.pool.size := by
    intro c hc
    obtain ⟨q, hq, rfl⟩ := List.mem_map.mp hc
    exact ((h.chain.mem q).mp (by rw [hl]; exact List.mem_append_right _ hq)).1
  have hscan : BPTree.scanChain t.pool verdict cb fuel (ids (b.map bare)).head? 0 s
      = .ok (visit verdict cb (contents t.pool (b.map bare)) s).1 :=
    scanChain_spec (b.map bare) s (by rw [ids_bare]; exact hlinked) hmem
      (fun c hc => Nat.le_of_lt (h.shape.cap c.id (hmem c hc) (by simp)))
      (by rwa [List.length_map])
  rw [ids_bare] at hscan
  exact ⟨_, hscan, visit_keeps hcb _ hs⟩

theorem Scannable.scanFromLeft (h : Scannable t r ht l) (hcb : ∀ s i, Q s → Q (cb s i).1) {s : σ}
    (hs : Q s) : ∃ s', t.scanFromLeft verdict cb s = .ok s' ∧ Q s' := by
  rw [BPTree.scanFromLeft, h.chain.first]
  exact h.scanChain hcb (List.nil_append l).symm h.length_le hs

/-- The leaf where a key would be, and its place there. -/
theorem Scannable.place (h : Scannable t r ht l) (key : Value) :
    ∃ p pos, t.findLeaf key = .ok (some p) ∧
    p < t.pool.size ∧ ht p = 0 ∧ BPTree.lowerBound (t.pool.cell p) key = .ok pos ∧
      pos ≤ (t.pool.cell p).numKeys ∧ (t.pool.cell p).numKeys < bptreeOrder := by
  obtain ⟨p, hleaf, hp, h0⟩ : ∃ p, t.findLeaf key = .ok (some p) ∧ p < t.pool.size ∧ ht p = 0 := by
    rw [BPTree.findLeaf, h.root]
    exact h.shape.findLeafLoop _ r h.shape.root h.shape.tall
  have hcap := h.shape.cap p hp (by simp)
  obtain ⟨pos, hpos, hle⟩ := lowerBound_le (Nat.le_of_lt hcap) key
  exact ⟨p, pos, hleaf, hp, h0, hpos, hle, hcap⟩

theorem Scannable.scanFromKey (h : Scannable t r ht l) (hcb : ∀ s i, Q s → Q (cb s i).1)
    (key : Value) {s : σ} (hs : Q s) : ∃ s', t.scanFromKey key verdict cb s = .ok s' ∧ Q s' := by
  obtain ⟨p, pos, hleaf, hp, h0, hpos, hle, hcap⟩ := h.place key
  obtain ⟨a, b, hl⟩ := List.append_of_mem ((h.chain.mem p).mpr ⟨hp, h0⟩)
  obtain ⟨fuel, hfuel⟩ := Nat.exists_eq_succ_of_ne_zero (Nat.ne_zero_of_lt hp)
  have hlen := h.length_le
  have hnext : (t.pool.cell p).next = b.head? := (hl ▸ h.chain.linked).next_eq
  have hkeep : Q (visit verdict cb (entriesFrom (t.pool.cell p) pos) s).1 := visit_keeps hcb _ hs
  rw [BPTree.scanFromKey]
  simp only [hleaf, Outcome.bind_ok, Heap.get_of_lt hp, hpos]
  rw [hfuel, scanChain_step fuel s hp (Nat.le_of_lt hcap) hle, hnext]
  generalize visit verdict cb (entriesFrom (t.pool.cell p) pos) s = c at hkeep
  obtain ⟨s', go⟩ := c
  cases go with
  | false => exact ⟨s', rfl, hkeep⟩
  | true =>
      refine h.scanChain hcb (a := a ++ [p]) (b := b) (by simp [hl]) ?_ hkeep
      rw [hl, List.length_append, List.length_cons] at hlen
      omega

theorem Scannable.rangeEq (h : Scannable t r ht l) (hcb : ∀ s i, Q s → Q (cb s i).1) (key : Value)
    {s : σ} (hs : Q s) : ∃ s', t.rangeEq key cb s = .ok s' ∧ Q s' := by
  obtain ⟨p, pos, hleaf, hp, -, hpos, -, hcap⟩ := h.place key
  rw [BPTree.rangeEq]
  simp only [hleaf, Outcome.bind_ok, Heap.get_of_lt hp, hpos, keyIs_spec (Nat.le_of_lt hcap)]
  split
  · next hfound =>
      have hlt : pos < (t.pool.cell p).numKeys := by
        rw [Bool.and_eq_true, decide_eq_true_eq] at hfound
        exact hfound.1
      rw [Node.rowId_of_lt (by omega), Outcome.bind_ok]
      exact ⟨_, rfl, hcb _ _ hs⟩
  · exact ⟨s, rfl, hs⟩

end Scans

/-! ## Rows -/

section Rows

variable {t : Table} {rs : List Record}

/-- The rows a query at `now` can see. -/
def visibleRows (now : Int64) (rs : List Record) : List Row :=
  (rs.filter (·.live now)).map (·.values)

theorem Rep.scannable (h : Rep t rs) : ∃ r ht l, Scannable t.pkIndex r ht l := by
  obtain ⟨index, r, ht, l, hrun, hscan⟩ :=
    insertAll_scannable (pkType t.schema) (indexOps (rs.map (·.values)))
  obtain rfl := Except.ok.inj (hrun.symm.trans h.index)
  exact ⟨r, ht, l, hscan⟩

/-- The callback of `index_range` collects rows that can be seen. -/
theorem Rep.collect_keeps (h : Rep t rs) (now : Int64) (results : Outcome (List Row)) (i : Nat)
    (hr : ∃ rows, results = .ok rows ∧ ∀ row ∈ rows, row ∈ visibleRows now rs) :
    ∃ rows, (t.collect now [] results i).1 = .ok rows ∧
      ∀ row ∈ rows, row ∈ visibleRows now rs := by
  obtain ⟨rows, rfl, hrows⟩ := hr
  rw [h.collect_one now (by simp)]
  refine ⟨_, rfl, fun row hrow => ?_⟩
  rcases List.mem_append.mp hrow with hrow | hrow
  · exact hrows row hrow
  · rw [Option.mem_toList, Option.map_eq_some_iff] at hrow
    obtain ⟨r, hr, rfl⟩ := hrow
    obtain ⟨hget, hlive⟩ := Option.filter_eq_some_iff.mp hr
    exact List.mem_map.mpr ⟨r, List.mem_filter.mpr ⟨List.mem_of_getElem? hget, hlive⟩, rfl⟩

theorem Rep.indexRange_returns (h : Rep t rs) (now : Int64) (op : CmpOp) (v : Value) :
    ∃ rows, t.indexRange now op v [] = .ok rows ∧ ∀ row ∈ rows, row ∈ visibleRows now rs := by
  obtain ⟨r, ht, l, hscan⟩ := h.scannable
  have hcb := fun (results : Outcome (List Row)) i => h.collect_keeps now results i
  have h0 : ∃ rows, (Except.ok [] : Outcome (List Row)) = .ok rows ∧
      ∀ row ∈ rows, row ∈ visibleRows now rs := ⟨[], rfl, by simp⟩
  -- the vector is read out when the scan is over
  have hread : ∀ {scan : Outcome (Outcome (List Row))}, (∃ results, scan = .ok results ∧
      ∃ rows, results = .ok rows ∧ ∀ row ∈ rows, row ∈ visibleRows now rs) →
      ∃ rows, (do let results ← scan; results) = .ok rows ∧
        ∀ row ∈ rows, row ∈ visibleRows now rs := by
    intro scan hscan
    obtain ⟨results, hrun, rows, rfl, hrows⟩ := hscan
    exact ⟨rows, by rw [hrun, Outcome.bind_ok], hrows⟩
  cases op with
  | eq => exact hread (hscan.rangeEq hcb v h0)
  | ne => exact hread (hscan.scanFromLeft hcb h0)
  | lt => exact hread (hscan.scanFromLeft hcb h0)
  | le => exact hread (hscan.scanFromLeft hcb h0)
  | gt => exact hread (hscan.scanFromKey hcb v h0)
  | ge => exact hread (hscan.scanFromKey hcb v h0)

theorem Rep.length_visible (h : Rep t rs) {now : Int64} {row : Row}
    (hrow : row ∈ visibleRows now rs) : row.length = t.schema.columns.length := by
  obtain ⟨r, hr, rfl⟩ := List.mem_map.mp hrow
  exact h.length_row (List.mem_of_mem_filter hr)

theorem Rep.whereRows_returns (h : Rep t rs) (now : Int64) {i : Nat}
    (hi : i < t.schema.columns.length) (op : CmpOp) (v : Value) :
    ∃ rows, Executor.whereRows now t i op v = .ok rows ∧
      ∀ row ∈ rows, row ∈ visibleRows now rs := by
  rw [Executor.whereRows]
  split
  · exact h.indexRange_returns now op v
  · next hpk =>
      exact ⟨_, h.scanWhere now hi hpk op v, fun row hrow => List.mem_of_mem_filter hrow⟩

end Rows

/-! ## Cells -/

section Cells

variable {row : Row}

theorem cell_eq_ok {α : Type} {l : List α} {i : Nat} {a : α} :
    Executor.cell l i = .ok a ↔ l[i]? = some a := by
  rw [Executor.cell]
  cases l[i]? <;> simp

theorem cells_return {idx : List Nat} (h : ∀ i ∈ idx, i < row.length) :
    ∃ out, idx.mapM (Executor.cell row) = .ok out :=
  Outcome.mapM_returns fun i hi => ⟨_, cell_eq_ok.mpr (List.getElem?_eq_getElem (h i hi))⟩

theorem Indexed.lt {s : Schema} (h : Indexed s) {name : Bytes} {i : Nat}
    (hi : s.findColumn name = some i) : i < s.columns.length := by
  obtain ⟨c, hc, -⟩ := h.sound name i hi
  exact (List.getElem?_eq_some_iff.mp hc).1

theorem Indexed.projection_lt {s : Schema} (h : Indexed s) {names : List Bytes} {idx : List Nat}
    (hproj : Executor.projection s names = .ok idx) : ∀ i ∈ idx, i < s.columns.length := by
  intro i hi
  obtain ⟨name, -, hfind⟩ := Outcome.exists_of_mem_mapM hproj hi
  split at hfind
  · next j hj =>
      obtain rfl := Except.ok.inj hfind
      exact h.lt hj
  · exact absurd hfind (by simp)

/-- The projection takes the cells at the indices from the rows. -/
theorem project_returns {width : Nat} {idx : List Nat} {rows : List Row}
    (hidx : ∀ i ∈ idx, i < width) (hrows : ∀ row ∈ rows, row.length = width) :
    ∃ outs, Executor.project width idx rows = .ok outs ∧
      ∀ out ∈ outs, ∃ row ∈ rows, idx.mapM (Executor.cell row) = .ok out := by
  rw [Executor.project]
  split
  · next hall =>
      refine ⟨rows, rfl, fun row hrow => ⟨row, hrow, ?_⟩⟩
      rw [hall, ← hrows row hrow]
      exact cells_range row
  · obtain ⟨outs, houts⟩ := Outcome.mapM_returns fun row hrow =>
      @cells_return row _ fun i hi => by rw [hrows row hrow]; exact hidx i hi
    exact ⟨outs, houts, fun out hout => Outcome.exists_of_mem_mapM houts hout⟩

end Cells

/-! ## One table -/

section Single

variable [FloatLib] {t : Table} {rs : List Record}

theorem Rep.scanTable_returns (h : Rep t rs) (hix : Indexed t.schema) (now : Int64)
    (whereClause : Option WhereClause) :
    ∃ res, Executor.scanTable now t whereClause = .ok res ∧
      ∀ rows, res = .ok rows → ∀ row ∈ rows, row ∈ visibleRows now rs := by
  cases whereClause with
  | none =>
      refine ⟨.ok (visibleRows now rs), ?_, fun rows hrows => ?_⟩
      · rw [Executor.scanTable, h.scanAll now, Outcome.bind_ok, visibleRows]
      · obtain rfl := Except.ok.inj hrows
        exact fun row hrow => hrow
  | some w =>
      rw [Executor.scanTable]
      cases hi : t.schema.findColumn (Bytes.toUpper w.column.column) with
      | none => exact ⟨_, rfl, fun rows hrows => absurd hrows (by simp)⟩
      | some i =>
          have hlt := hix.lt hi
          have hcell : Executor.cell t.schema.columns i = .ok t.schema.columns[i] := by
            rw [Executor.cell, List.getElem?_eq_getElem hlt]
          simp only [hcell, Outcome.bind_ok]
          cases hv : Executor.parseLiteral w.literal t.schema.columns[i].type with
          | error e => exact ⟨_, rfl, fun rows hrows => absurd hrows (by simp)⟩
          | ok v =>
              obtain ⟨found, hrun, hfound⟩ :=
                h.whereRows_returns now hlt (Executor.convertOp w.op) v
              refine ⟨.ok found, by simp only [hrun, Outcome.bind_ok], fun rows hrows => ?_⟩
              rwa [← Except.ok.inj hrows]

theorem Rep.selectSingle_returns (h : Rep t rs) (hix : Indexed t.schema) (now : Int64)
    (stmt : SelectStmt) :
    ∃ res, Executor.selectSingle now stmt t = .ok res ∧
      ∀ r, res = .ok r → Grounded [visibleRows now rs] r.rows := by
  simp only [Executor.selectSingle]
  generalize (if Executor.selectsAll stmt then t.schema.columns.map (·.name)
    else stmt.columns.map fun cr => Bytes.toUpper cr.column) = names
  cases hproj : Executor.projection t.schema names with
  | error e => exact ⟨_, rfl, fun r hr => absurd hr (by simp)⟩
  | ok idx =>
      obtain ⟨res, hscan, hrows⟩ := h.scanTable_returns hix now stmt.whereClause
      simp only [hscan, Outcome.bind_ok]
      cases res with
      | error e => exact ⟨_, rfl, fun r hr => absurd hr (by simp)⟩
      | ok rows =>
          have hvisible := hrows rows rfl
          obtain ⟨outs, hout, hfrom⟩ := project_returns (hix.projection_lt hproj)
            fun row hrow => h.length_visible (hvisible row hrow)
          refine ⟨.ok ⟨names, outs⟩, by simp only [hout, Outcome.bind_ok], fun r hr => ?_⟩
          obtain rfl := Except.ok.inj hr
          refine ⟨idx.map fun i => (0, i), fun out hmem => ?_⟩
          obtain ⟨row, hrow, hcells⟩ := hfrom out hmem
          refine ⟨[row], .cons (hvisible row hrow) .nil, ?_⟩
          rw [MadeOf, List.forall₂_map_left_iff]
          exact (Outcome.mapM_eq_ok.mp hcells).imp fun i v hv => ⟨row, rfl, cell_eq_ok.mp hv⟩

end Single

/-! ## Two tables -/

section Join

variable {j : Executor.JoinTables} {leftRow rightRow : Row}

/-- The columns of the two tables, and of a row of each. -/
structure Widths (j : Executor.JoinTables) (leftRow rightRow : Row) : Prop where
  left : leftRow.length = j.left.columns.length
  right : rightRow.length = j.right.columns.length

open Executor.JoinTables (pick)

/-- The source is a column. -/
def Sourced (j : Executor.JoinTables) (src : Executor.Side × Nat) : Prop :=
  src.2 < (pick src.1 j.left j.right).columns.length

theorem Widths.pick (h : Widths j leftRow rightRow) (side : Executor.Side) :
    (pick side leftRow rightRow).length = (pick side j.left j.right).columns.length := by
  cases side with
  | left => exact h.left
  | right => exact h.right

theorem find_sourced (hl : Indexed j.left) (hr : Indexed j.right) {table column : Bytes}
    {src : Executor.Side × Nat} (h : j.find table column = some src) : Sourced j src := by
  rw [Executor.JoinTables.find, Executor.JoinTables.resolve, Executor.JoinTables.resolve] at h
  split at h
  · next i hi =>
      obtain rfl := Option.some.inj h
      split at hi
      · exact hl.lt hi
      · exact absurd hi (by simp)
  · obtain ⟨i, hi, rfl⟩ := Option.map_eq_some_iff.mp h
    split at hi
    · exact hr.lt hi
    · exact absurd hi (by simp)

theorem allColumns_sourced {c : Bytes × Executor.Side × Nat} (h : c ∈ j.allColumns) :
    Sourced j c.2 := by
  rcases List.mem_append.mp h with h | h <;> obtain ⟨x, hx, rfl⟩ := List.mem_map.mp h <;>
    exact List.snd_lt_of_mem_zipIdx hx

theorem selectedColumns_sourced (hl : Indexed j.left) (hr : Indexed j.right)
    {refs : List ColumnRef} {cols : List (Bytes × Executor.Side × Nat)}
    (h : j.selectedColumns refs = .ok cols) {c : Bytes × Executor.Side × Nat} (hc : c ∈ cols) :
    Sourced j c.2 := by
  obtain ⟨cr, -, hfind⟩ := Outcome.exists_of_mem_mapM h hc
  dsimp only at hfind
  split at hfind
  · next src hsrc =>
      obtain rfl := Except.ok.inj hfind
      exact find_sourced hl hr hsrc
  · exact absurd hfind (by simp)

variable [FloatLib]

theorem allows_returns (hl : Indexed j.left) (hr : Indexed j.right)
    (hw : Widths j leftRow rightRow) (whereClause : Option WhereClause) :
    ∃ b, j.allows whereClause leftRow rightRow = .ok b := by
  cases whereClause with
  | none => exact ⟨true, rfl⟩
  | some w =>
      rw [Executor.JoinTables.allows, Executor.JoinTables.passes]
      split
      · exact ⟨true, rfl⟩
      · next side i hfind =>
          have hlt : i < (pick side j.left j.right).columns.length := find_sourced hl hr hfind
          rw [Executor.cell, List.getElem?_eq_getElem hlt, Outcome.bind_ok]
          split
          · exact ⟨true, rfl⟩
          · rw [Executor.cell, List.getElem?_eq_getElem (by rw [hw.pick]; exact hlt),
              Outcome.bind_ok]
            exact ⟨_, rfl⟩

/-- The place of a source in a list of the two rows. -/
def placeOf (src : Executor.Side × Nat) : Nat × Nat := (pick src.1 0 1, src.2)

theorem emit_returns (hl : Indexed j.left) (hr : Indexed j.right)
    (hw : Widths j leftRow rightRow) (whereClause : Option WhereClause)
    {sources : List (Executor.Side × Nat)} (hs : ∀ src ∈ sources, Sourced j src) :
    ∃ rows, j.emit whereClause sources leftRow rightRow = .ok rows ∧
      ∀ out ∈ rows, MadeOf [leftRow, rightRow] (sources.map placeOf) out := by
  obtain ⟨b, hb⟩ := allows_returns hl hr hw whereClause
  rw [Executor.JoinTables.emit, hb, Outcome.bind_ok]
  cases b with
  | false => exact ⟨[], rfl, by simp⟩
  | true =>
      have hcells : ∀ src ∈ sources,
          ∃ v, Executor.cell (pick src.1 leftRow rightRow) src.2 = .ok v := by
        intro src hsrc
        have hlt : src.2 < (pick src.1 leftRow rightRow).length := by
          rw [hw.pick]
          exact hs src hsrc
        exact ⟨_, cell_eq_ok.mpr (List.getElem?_eq_getElem hlt)⟩
      obtain ⟨out, hout⟩ := Outcome.mapM_returns hcells
      refine ⟨[out], by rw [if_pos rfl, hout, Outcome.bind_ok], fun out' hmem => ?_⟩
      obtain rfl := List.mem_singleton.mp hmem
      rw [MadeOf, List.forall₂_map_left_iff]
      refine (Outcome.mapM_eq_ok.mp hout).imp fun src v hv => ⟨_, ?_, cell_eq_ok.mp hv⟩
      rw [placeOf]
      cases src.1 <;> rfl

end Join

section Loops

variable {left right : List Row} {emit : Row → Row → Outcome (List Row)}
  {leftIdx rightIdx : Nat} {P : Row → Row → Row → Prop}

theorem forRows_returns {α : Type} {f : α → Outcome (List Row)} {l : List α} {Q : Row → Prop}
    (h : ∀ a ∈ l, ∃ rows, f a = .ok rows ∧ ∀ out ∈ rows, Q out) :
    ∃ rows, Executor.forRows f l = .ok rows ∧ ∀ out ∈ rows, Q out := by
  induction l with
  | nil => exact ⟨[], rfl, by simp⟩
  | cons a l ih =>
      obtain ⟨first, hfirst, hq⟩ := h a List.mem_cons_self
      obtain ⟨rest, hrest, hq'⟩ := ih fun x hx => h x (List.mem_cons_of_mem _ hx)
      refine ⟨first ++ rest, ?_, fun out hout => ?_⟩
      · rw [Executor.forRows, hfirst, Outcome.bind_ok, hrest, Outcome.bind_ok]
      · exact (List.mem_append.mp hout).elim (hq out) (hq' out)

/-- The hash index holds positions of rows. -/
def Positions (n : Nat) (index : List (Value × List Nat)) : Prop :=
  ∀ e ∈ index, ∀ i ∈ e.2, i < n

theorem hashPush_positions {n i : Nat} (hi : i < n) (key : Value)
    {index : List (Value × List Nat)} (h : Positions n index) :
    Positions n (Executor.hashPush key i index) := by
  induction index with
  | nil =>
      intro e he k hk
      obtain rfl := List.mem_singleton.mp he
      rwa [List.mem_singleton.mp hk]
  | cons e es ih =>
      have hes : Positions n es := fun e' he' => h e' (List.mem_cons_of_mem _ he')
      rw [Executor.hashPush]
      split
      · refine List.forall_mem_cons.mpr ⟨fun k hk => ?_, hes⟩
        rcases List.mem_append.mp hk with hk | hk
        · exact h e List.mem_cons_self k hk
        · rwa [List.mem_singleton.mp hk]
      · exact List.forall_mem_cons.mpr ⟨h e List.mem_cons_self, ih hes⟩

theorem hashRows_returns {n : Nat} {rows : List Row} (hr : ∀ r ∈ rows, rightIdx < r.length)
    {i : Nat} (hi : i + rows.length ≤ n) {index : List (Value × List Nat)}
    (h : Positions n index) :
    ∃ index', Executor.hashRows rightIdx rows i index = .ok index' ∧ Positions n index' := by
  induction rows generalizing i index with
  | nil => exact ⟨index, rfl, h⟩
  | cons row rows ih =>
      rw [List.length_cons] at hi
      rw [Executor.hashRows, cell_eq_ok.mpr (List.getElem?_eq_getElem (hr row List.mem_cons_self)),
        Outcome.bind_ok]
      exact ih (fun r h => hr r (List.mem_cons_of_mem _ h)) (by omega)
        (hashPush_positions (by omega) _ h)

/-- Every row of a join comes from a row of each side. -/
theorem joinRows_returns (op : AstCmpOp) (hl : ∀ l ∈ left, leftIdx < l.length)
    (hr : ∀ r ∈ right, rightIdx < r.length)
    (he : ∀ l ∈ left, ∀ r ∈ right, ∃ rows, emit l r = .ok rows ∧ ∀ out ∈ rows, P l r out) :
    ∃ rows, Executor.joinRows emit op leftIdx rightIdx left right = .ok rows ∧
      ∀ out ∈ rows, ∃ l ∈ left, ∃ r ∈ right, P l r out := by
  have hpair : ∀ l ∈ left, ∀ r ∈ right, ∃ rows, emit l r = .ok rows ∧
      ∀ out ∈ rows, ∃ l ∈ left, ∃ r ∈ right, P l r out := by
    intro l hl r hr
    obtain ⟨rows, hrun, hrows⟩ := he l hl r hr
    exact ⟨rows, hrun, fun out hout => ⟨l, hl, r, hr, hrows out hout⟩⟩
  rw [Executor.joinRows]
  split
  · have hempty : Positions right.length [] := by simp [Positions]
    obtain ⟨index, hindex, hpos⟩ := hashRows_returns hr (Nat.zero_add _).le hempty
    rw [Executor.hashJoin, hindex, Outcome.bind_ok]
    refine forRows_returns fun l hmem => ?_
    rw [cell_eq_ok.mpr (List.getElem?_eq_getElem (hl l hmem)), Outcome.bind_ok]
    split
    · exact ⟨[], rfl, by simp⟩
    · next e hfind =>
        refine forRows_returns fun i hi => ?_
        have hlt := hpos e (List.mem_of_find?_eq_some hfind) i hi
        rw [Executor.cell, List.getElem?_eq_getElem hlt, Outcome.bind_ok]
        exact hpair l hmem _ (List.getElem_mem hlt)
  · rw [Executor.nestedLoopJoin]
    refine forRows_returns fun l hmem => ?_
    rw [cell_eq_ok.mpr (List.getElem?_eq_getElem (hl l hmem)), Outcome.bind_ok]
    refine forRows_returns fun r hmem' => ?_
    rw [cell_eq_ok.mpr (List.getElem?_eq_getElem (hr r hmem')), Outcome.bind_ok]
    split
    · exact hpair l hmem r hmem'
    · exact ⟨[], rfl, by simp⟩

end Loops

/-! ## Queries -/

section Queries

variable [FloatLib] {tables : Finmap fun _ : Bytes => Table} {rows : Bytes → List Record}

theorem selectJoin_returns {left : Table} {leftName : Bytes} {join : JoinClause}
    (hleft : Rep left (rows leftName)) (hix : Indexed left.schema)
    (htables : ∀ name t, tables.lookup name = some t → Rep t (rows name) ∧ Indexed t.schema)
    (now : Int64) (stmt : SelectStmt) :
    ∃ res, Executor.selectJoin tables now stmt leftName left join = .ok res ∧
      ∀ r, res = .ok r → Grounded
        [visibleRows now (rows leftName), visibleRows now (rows (Bytes.toUpper join.rightTable))]
        r.rows := by
  have hfail : ∀ e : Bytes, ∃ res : Except Bytes CachedResult,
      (.ok (.error e) : Outcome (Except Bytes CachedResult)) = .ok res ∧
        ∀ r, res = .ok r → Grounded [visibleRows now (rows leftName),
          visibleRows now (rows (Bytes.toUpper join.rightTable))] r.rows :=
    fun e => ⟨_, rfl, fun r hr => absurd hr (by simp)⟩
  simp only [Executor.selectJoin]
  split
  · exact hfail _
  · next right hlook =>
      obtain ⟨hright, hix'⟩ := htables _ _ hlook
      split
      · exact hfail _
      · exact hfail _
      · next i k hi hk =>
          simp only [hleft.scanAll now, hright.scanAll now, Outcome.bind_ok]
          generalize hcols : (if Executor.selectsAll stmt then _ else _ :
            Except Bytes (List (Bytes × Executor.Side × Nat))) = cols
          cases cols with
          | error e => exact hfail e
          | ok cols =>
              have hsourced : ∀ src ∈ cols.map (·.2), Sourced ⟨leftName, left.schema,
                  Bytes.toUpper join.rightTable, right.schema⟩ src := by
                intro src hsrc
                obtain ⟨c, hc, rfl⟩ := List.mem_map.mp hsrc
                split at hcols
                · exact allColumns_sourced (Except.ok.inj hcols ▸ hc)
                · exact selectedColumns_sourced hix hix' hcols hc
              have hemit := fun l (hl : l ∈ visibleRows now (rows leftName)) r
                  (hr : r ∈ visibleRows now (rows (Bytes.toUpper join.rightTable))) =>
                emit_returns hix hix' ⟨hleft.length_visible hl, hright.length_visible hr⟩
                  stmt.whereClause hsourced
              obtain ⟨outs, hrun, hfrom⟩ := joinRows_returns join.op
                (fun l hl => by rw [hleft.length_visible hl]; exact hix.lt hi)
                (fun r hr => by rw [hright.length_visible hr]; exact hix'.lt hk) hemit
              rw [visibleRows, visibleRows] at hrun
              simp only [hrun, Outcome.bind_ok]
              refine ⟨_, rfl, fun r hr => ?_⟩
              obtain rfl := Except.ok.inj hr
              refine ⟨(cols.map (·.2)).map placeOf, fun out hout => ?_⟩
              obtain ⟨l, hl, r, hr, hmade⟩ := hfrom out hout
              exact ⟨[l, r], .cons hl (.cons hr .nil), hmade⟩

/-- A query returns, and its rows come from visible rows of the tables it
reads. -/
theorem selectRows_returns
    (htables : ∀ name t, tables.lookup name = some t → Rep t (rows name) ∧ Indexed t.schema)
    (now : Int64) (stmt : SelectStmt) :
    ∃ res, Executor.selectRows tables now stmt = .ok res ∧
      ∀ r, res = .ok r →
        Grounded ((reads stmt).map fun name => visibleRows now (rows name)) r.rows := by
  rw [Executor.selectRows]
  cases hlook : tables.lookup (Bytes.toUpper stmt.tableName) with
  | none => exact ⟨_, rfl, fun r hr => absurd hr (by simp)⟩
  | some t =>
      obtain ⟨hrep, hix⟩ := htables _ t hlook
      rw [reads]
      cases stmt.join with
      | none => exact hrep.selectSingle_returns hix now stmt
      | some join => exact selectJoin_returns hrep hix htables now stmt

end Queries

end FlexQL.Proofs
