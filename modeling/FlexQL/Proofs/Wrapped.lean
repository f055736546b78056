import FlexQL.Proofs.Insert

/-!
# A layout that wraps around

Offsets and row sizes have 32 bits, and nothing limits the number of columns.
Behind an integer the offsets of long strings run up to 2^32 and start over,
so that a string is written over the integer. The row still fits its block:
everything returns, the scan shows a wrong integer, and the index keeps the
right one.
-/

namespace FlexQL.Proofs

open Lib FlexQL.Ref FlexQL.Spec

/-! ## Memory that is mostly zero -/

section Blank

/-- Chunk `c` is zero but for the marked bytes. -/
structure ZeroBut (a : Arena) (c cap : Nat) (marked : Nat → Prop) : Prop where
  chunk : c < a.chunks.size
  cap : (a.chunks.cell c).capacity = cap
  zero : ∀ x, ¬ marked x → (a.chunks.cell c).data x = 0

variable {a : Arena} {c cap off : Nat} {marked : Nat → Prop} {w : Bytes}

theorem ZeroBut.write (h : ZeroBut a c cap marked) (off : Nat) (w : Bytes)
    (marked' : Nat → Prop) (hb : off + w.length ≤ cap)
    (hold : ∀ x, marked x → marked' x ∨ (off ≤ x ∧ x < off + w.length))
    (hnew : ∀ i, i < w.length → w.getD i 0 = 0 ∨ marked' (off + i)) :
    ∃ a', a.write ⟨c, 0⟩ off w = .ok a' ∧ ZeroBut a' c cap marked' ∧
      Holds a' ⟨c, 0⟩ off w ∧ Changed a a' ⟨c, 0⟩ off (off + w.length) := by
  have hin : InBounds a ⟨c, 0⟩ off w.length := ⟨h.chunk, by
    show 0 + off + w.length ≤ (a.chunks.cell c).capacity
    rw [h.cap]
    omega⟩
  obtain ⟨a', hw, hholds, hch⟩ := write_spec hin
  refine ⟨a', hw, ⟨hch.chunks ▸ h.chunk, (hch.capacity c).trans h.cap, fun x hx => ?_⟩, hholds, hch⟩
  rw [write_of_inBounds hin] at hw
  rw [← Except.ok.inj hw]
  simp only [Heap.put_cell_self, Nat.zero_add]
  by_cases hrange : off ≤ x ∧ x < off + w.length
  · obtain ⟨i, rfl⟩ := Nat.exists_eq_add_of_le hrange.1
    have hi : i < w.length := by omega
    have hzero := (hnew i hi).resolve_right hx
    rwa [List.getD_eq_getElem?_getD, blit_in (a.chunks.cell c).data hi] at hzero
  · rw [blit_out _ (by omega)]
    exact h.zero x fun hm => (hold x hm).elim hx hrange

theorem ZeroBut.holds (h : ZeroBut a c cap marked) (hb : off + w.length ≤ cap)
    (hw : ∀ b ∈ w, b = 0) (hx : ∀ x, off ≤ x → x < off + w.length → ¬ marked x) :
    Holds a ⟨c, 0⟩ off w := by
  refine holds_iff_getElem?.mpr ⟨⟨h.chunk, ?_⟩, fun i hi => ?_⟩
  · show 0 + off + w.length ≤ (a.chunks.cell c).capacity
    rw [h.cap]
    omega
  · show w[i]? = some ((a.chunks.cell c).data (0 + off + i))
    rw [h.zero _ (hx _ (by omega) (by omega)), List.getElem?_eq_getElem hi,
      hw _ (List.getElem_mem hi)]

/-- Empty strings are written as zeros. -/
theorem ZeroBut.writeColumns (h : ZeroBut a c cap marked) (s : Schema) (i : Nat)
    (cols : List ColumnDef) (marked' : Nat → Prop) (hcols : ∀ col ∈ cols, col.type = .varchar)
    (hoff : ∀ j, i ≤ j → j < i + cols.length → (s.columnOffset j).toNat + 2 ≤ cap)
    (hold : ∀ x, marked x → marked' x ∨ ∃ j, i ≤ j ∧ j < i + cols.length ∧
      (s.columnOffset j).toNat ≤ x ∧ x < (s.columnOffset j).toNat + 2) :
    ∃ a', Table.writeColumns s ⟨c, 0⟩ i cols (cols.map fun _ => .varchar []) a = .ok a' ∧
      ZeroBut a' c cap marked' := by
  induction cols generalizing a i marked with
  | nil =>
      refine ⟨a, rfl, h.chunk, h.cap, fun x hx => h.zero x fun hm => ?_⟩
      rcases hold x hm with hm | ⟨j, hj, hlt, -⟩
      · exact hx hm
      · exact absurd hlt (by simpa using hj)
  | cons col cols ih =>
      have henc : encodeValue col.type (.varchar []) = [0, 0] := by
        rw [hcols col List.mem_cons_self]
        rfl
      rw [List.length_cons] at hoff hold
      obtain ⟨a₁, hw, hz, -⟩ := h.write _ [0, 0]
        (fun x => marked x ∧ ¬ ((s.columnOffset i).toNat ≤ x ∧ x < (s.columnOffset i).toNat + 2))
        (hoff i (Nat.le_refl _) (by omega))
        (fun x hm => (Classical.em _).symm.imp_left fun hout => ⟨hm, hout⟩)
        (fun j hj => .inl (by revert j; decide))
      obtain ⟨a', hrun, ha'⟩ := ih hz (i + 1) (fun d hd => hcols d (List.mem_cons_of_mem _ hd))
        (fun j hj hlt => hoff j (by omega) (by omega)) fun x hm => by
          refine (hold x hm.1).imp_right ?_
          rintro ⟨j, hj, hlt, hx⟩
          have hne : i ≠ j := fun he => hm.2 (he ▸ hx)
          exact ⟨j, by omega, by omega, hx⟩
      refine ⟨a', ?_, ha'⟩
      rw [List.map_cons, Table.writeColumns, henc, hw, Outcome.bind_ok]
      exact hrun

/-- A block larger than a chunk gets a chunk of its own. -/
theorem allocate_large {size chunkSize : Nat} (hsize : chunkSize < size) :
    ∃ a, (Arena.new chunkSize).allocate size = .ok (a, some ⟨1, 0⟩) ∧
      ZeroBut a 1 (size + 8) fun _ => False := by
  have hrun : (Arena.new chunkSize).allocate size =
      .ok ({ (Arena.new chunkSize).allocateNewChunk (size + 8) with
        currentOffset := 0 + size, totalAllocated := 0 + size }, some ⟨1, 0⟩) := by
    have hget : (Arena.new chunkSize).chunks.get ((Arena.new chunkSize).chunks.size - 1) =
        .ok ⟨fun _ => 0, max chunkSize chunkSize⟩ := rfl
    have halign : Arena.alignUp (Arena.new chunkSize).currentOffset 8 = 0 := by
      show Arena.alignUp 0 8 = 0
      decide
    rw [Arena.allocate, if_neg (by omega), hget, Outcome.bind_ok]
    simp only [halign]
    rw [if_pos (by omega)]
    rfl
  refine ⟨_, hrun, Nat.lt_succ_self 1, ?_, fun _ _ => rfl⟩
  show max (size + 8) chunkSize = size + 8
  omega

end Blank

/-! ## The layout -/

section Wrapped

/-- A name for every column: a letter and four digits in base 26. -/
def wideName (i : Nat) : Bytes :=
  [66, UInt8.ofNat (65 + i / 17576), UInt8.ofNat (65 + i / 676 % 26),
    UInt8.ofNat (65 + i / 26 % 26), UInt8.ofNat (65 + i % 26)]

theorem wideName_inj {i j : Nat} (hi : i < 456976) (hj : j < 456976)
    (h : wideName i = wideName j) : i = j := by
  have hbyte : ∀ {a b : Nat}, a < 26 → b < 26 → UInt8.ofNat (65 + a) = UInt8.ofNat (65 + b) →
      a = b := by
    intro a b ha hb hab
    have hnat := congrArg UInt8.toNat hab
    rw [UInt8.toNat_ofNat_of_lt' (by show _ < 256; omega),
      UInt8.toNat_ofNat_of_lt' (by show _ < 256; omega)] at hnat
    omega
  simp only [wideName, List.cons.injEq, and_true, true_and] at h
  obtain ⟨h₃, h₂, h₁, h₀⟩ := h
  have e₃ := hbyte (by omega) (by omega) h₃
  have e₂ := hbyte (by omega) (by omega) h₂
  have e₁ := hbyte (by omega) (by omega) h₁
  have e₀ := hbyte (by omega) (by omega) h₀
  omega

theorem toUpper_wideName {i : Nat} (hi : i < 456976) : Bytes.toUpper (wideName i) = wideName i := by
  have hbyte : ∀ a, a < 26 → Bytes.upperChar (UInt8.ofNat (65 + a)) = UInt8.ofNat (65 + a) := by
    decide
  simp only [wideName, Bytes.toUpper, List.map_cons, List.map_nil,
    hbyte _ (show i / 17576 < 26 by omega), hbyte _ (Nat.mod_lt _ (by decide : 0 < 26))]
  rfl

/-- An integer and `n` strings of the greatest length. -/
def wideColumns (n : Nat) : List ColumnDef :=
  ⟨Bytes.lit "A", .int, 0⟩ :: (List.range n).map fun i => ⟨wideName i, .varchar, 65535⟩

def wideSchema (n : Nat) : Schema := Schema.empty.addColumns (wideColumns n)

/-- Columns without a length to cut are added as they are. -/
theorem columns_addColumns {s : Schema} {cols : List ColumnDef}
    (h : ∀ c ∈ cols, c.type ≠ .varchar → c.maxLen = 0) :
    (s.addColumns cols).columns = s.columns ++ cols := by
  induction cols generalizing s with
  | nil => exact (List.append_nil _).symm
  | cons c cols ih =>
      have hc : (s.addColumn c.name c.type c.maxLen).columns = s.columns ++ [c] := by
        show s.columns ++ [(⟨c.name, c.type, if c.type = .varchar then c.maxLen else 0⟩ :
          ColumnDef)] = _
        by_cases ht : c.type = .varchar
        · rw [if_pos ht]
        · rw [if_neg ht, ← h c List.mem_cons_self ht]
      have hrest := ih (s := s.addColumn c.name c.type c.maxLen)
        fun d hd => h d (List.mem_cons_of_mem _ hd)
      rw [hc, List.append_assoc] at hrest
      exact hrest

variable {n : Nat}

theorem wideSchema_columns : (wideSchema n).columns = wideColumns n := by
  refine columns_addColumns fun c hc ht => ?_
  rcases List.mem_cons.mp hc with rfl | hc
  · rfl
  · obtain ⟨i, -, rfl⟩ := List.mem_map.mp hc
    exact absurd rfl ht

theorem extent_wide {i : Nat} (hi : i ≤ n) :
    extent ((wideColumns n).take (i + 1)) = 4 + 65537 * i := by
  rw [wideColumns, List.take_succ_cons, extent_cons, ← List.map_take, List.take_range,
    Nat.min_eq_left hi]
  congr 1
  induction i with
  | zero => rfl
  | succ i ih =>
      rw [List.range_succ, List.map_append, extent_append, ih (by omega)]
      rfl

theorem wideSchema_built : Built (wideSchema n) := built_empty.addColumns _

theorem wideSchema_offset {i : Nat} (hi : i < n) :
    ((wideSchema n).columnOffset (i + 1)).toNat = (4 + 65537 * i) % 2 ^ 32 := by
  have hlen : i + 1 < (wideSchema n).columns.length := by
    rw [wideSchema_columns, wideColumns, List.length_cons, List.length_map, List.length_range]
    omega
  rw [Schema.columnOffset, wideSchema_built.offsets, List.getD_eq_getElem?_getD,
    List.getElem?_map, List.getElem?_range hlen, wideSchema_columns, Option.map_some,
    Option.getD_some, extent_wide (by omega), UInt32.toNat_ofNat']

theorem wideSchema_rowSize : (wideSchema n).rowSize.toNat = (4 + 65537 * n) % 2 ^ 32 := by
  have htake : (wideColumns n).take (n + 1) = wideColumns n :=
    List.take_of_length_le (by simp [wideColumns])
  rw [wideSchema_built.rowSize, wideSchema_columns, ← htake, extent_wide (Nat.le_refl n),
    UInt32.toNat_ofNat']

/-- The first 65535 strings lie behind one another; then the offsets start
over, three bytes in. -/
theorem wideOffset_eq {i : Nat} (hi : i < 131069) :
    (4 + 65537 * i) % 2 ^ 32 = if i < 65535 then 4 + 65537 * i else 3 + 65537 * (i - 65535) := by
  split
  · exact Nat.mod_eq_of_lt (by omega)
  · obtain ⟨k, rfl⟩ := Nat.exists_eq_add_of_le (show 65535 ≤ i by omega)
    rw [show 4 + 65537 * (65535 + k) = 3 + 65537 * k + 2 ^ 32 by omega, Nat.add_mod_right,
      Nat.mod_eq_of_lt (by omega), Nat.add_sub_cancel_left]

theorem wideOffset_free {i : Nat} (hi : i < 131069) :
    (4 + 65537 * i) % 2 ^ 32 + 2 ≤ 4294901778 ∧
      ∀ x, (4 + 65537 * i) % 2 ^ 32 ≤ x → x < (4 + 65537 * i) % 2 ^ 32 + 2 →
        x ≠ 4294901764 ∧ x ≠ 4294901769 := by
  rw [wideOffset_eq hi]
  split
  · exact ⟨by omega, fun x hlo hhi => ⟨by omega, by omega⟩⟩
  · exact ⟨by omega, fun x hlo hhi => ⟨by omega, by omega⟩⟩

/-- An integer and empty strings. -/
def wideRow (v : Int32) (n : Nat) : Row :=
  .int v :: (List.range n).map fun _ => .varchar []

def wideTable (n : Nat) (a : Arena) : Table where
  name := Bytes.lit "T"
  schema := wideSchema n
  ttlSeconds := defaultTtlSeconds
  arena := a
  cachedRowSize := (wideSchema n).totalRowSize
  rows := []
  rowCount := 0
  pkIndex := BPTree.new .int

theorem wideTable_new :
    Table.new (Bytes.lit "T") (wideSchema n) defaultTtlSeconds =
      .ok (wideTable n (Arena.new arenaChunkSize)) := by
  have hpk : (wideSchema n).pkColumn = .ok ⟨Bytes.lit "A", .int, 0⟩ := by
    rw [Schema.pkColumn, wideSchema_built.pkIndex, wideSchema_columns]
    rfl
  rw [Table.new, hpk, Outcome.bind_ok]
  rfl

theorem wideRow_accepted (v : Int32) : (wideSchema n).validateRow (wideRow v n) = none := by
  rw [validateRow_eq_none, wideSchema_columns]
  refine .cons ⟨rfl, fun h => absurd h (by decide)⟩ ?_
  rw [List.forall₂_map_left_iff, List.forall₂_map_right_iff, List.forall₂_same]
  exact fun i _ => ⟨rfl, fun _ => Nat.zero_le _⟩

theorem wideSchema_offset_zero : (wideSchema n).columnOffset 0 = 0 := by
  have hlen : 0 < (wideSchema n).columns.length := by
    rw [wideSchema_columns]
    exact Nat.succ_pos _
  rw [Schema.columnOffset, wideSchema_built.offsets, List.getD_eq_getElem?_getD,
    List.getElem?_map, List.getElem?_range hlen]
  rfl

/-- The bytes of a row with the integer 2^24 that expires at 104 * 2^24: the
one byte of the integer that is not zero is gone. -/
theorem wide_write (hn : n = 131069) {t : Table} (ht : t.schema = wideSchema n)
    (hz : ZeroBut t.arena 1 4294901778 fun _ => False) :
    ∃ a, t.writeRow ⟨1, 0⟩ (wideRow 16777216 n) 1744830464 = .ok { t with arena := a } ∧
      ZeroBut a 1 4294901778 (fun x => x = 4294901764 ∨ x = 4294901769) ∧
      Holds a ⟨1, 0⟩ 4294901761 (Bytes.le 1744830464 8) ∧
      Holds a ⟨1, 0⟩ 4294901769 [1] := by
  have hrow : (wideSchema n).rowSize.toNat = 4294901761 := by
    rw [wideSchema_rowSize, hn]
    decide
  have hvalid : (wideSchema n).validOffset.toNat = 4294901769 := by
    rw [Schema.validOffset, UInt32.toNat_add, hrow]
    rfl
  have hlen : ((List.range n).map fun i => (⟨wideName i, .varchar, 65535⟩ : ColumnDef)).length =
      131069 := by
    rw [List.length_map, List.length_range, hn]
  have hoff : ∀ j, 1 ≤ j → j < 1 + 131069 → ∃ i, i < 131069 ∧ j = i + 1 ∧
      ((wideSchema n).columnOffset j).toNat = (4 + 65537 * i) % 2 ^ 32 := by
    intro j hj hlt
    obtain ⟨i, rfl⟩ := Nat.exists_eq_add_of_le' hj
    exact ⟨i, by omega, rfl, wideSchema_offset (by omega)⟩
  -- the integer
  obtain ⟨a₁, hw₁, hz₁, -⟩ := hz.write 0 [0, 0, 0, 1] (fun x => x = 3) (by decide)
    (fun x hx => hx.elim) (by decide)
  -- the strings; number 65535 stands on byte 3
  obtain ⟨a₂, hw₂, hz₂⟩ := hz₁.writeColumns (wideSchema n) 1
    ((List.range n).map fun i => ⟨wideName i, .varchar, 65535⟩) (fun _ => False)
    (fun col hcol => by
      obtain ⟨i, -, rfl⟩ := List.mem_map.mp hcol
      rfl)
    (fun j hj hlt => by
      rw [hlen] at hlt
      obtain ⟨i, hi, -, he⟩ := hoff j hj hlt
      rw [he]
      exact (wideOffset_free hi).1)
    (fun x hx => by
      refine .inr ⟨65536, by decide, by rw [hlen]; decide, ?_⟩
      rw [wideSchema_offset (by omega), hx]
      decide)
  -- the expiry and the flag
  obtain ⟨a₃, hw₃, hz₃, hh₃, -⟩ := hz₂.write 4294901761 (Bytes.le 1744830464 8)
    (fun x => x = 4294901764) (by decide) (fun x hx => hx.elim) (by decide)
  obtain ⟨a₄, hw₄, hz₄, hh₄, hch₄⟩ := hz₃.write 4294901769 [1]
    (fun x => x = 4294901764 ∨ x = 4294901769) (by decide) (fun x hx => .inl (.inl hx))
    (by decide)
  refine ⟨a₄, ?_, hz₄, hch₄.frame _ _ _ (.inr (.inl (by decide))) hh₃, hh₄⟩
  rw [List.map_map] at hw₂
  have hcols : Table.writeColumns (wideSchema n) ⟨1, 0⟩ 0 (wideColumns n) (wideRow 16777216 n)
      t.arena = .ok a₂ := by
    rw [wideColumns, wideRow, Table.writeColumns, wideSchema_offset_zero,
      show encodeValue .int (.int 16777216) = [0, 0, 0, 1] by decide]
    exact (congrArg (· >>= _) hw₁).trans hw₂
  rw [Table.writeRow, ht, wideSchema_columns, hcols, Outcome.bind_ok, Schema.expiryOffset, hrow,
    show (1744830464 : Int64).toUInt64.toNat = 1744830464 by decide, hw₃, Outcome.bind_ok, hvalid,
    hw₄, Outcome.bind_ok]

/-- What is read from those bytes. -/
theorem wide_read (hn : n = 131069) {t : Table} (ht : t.schema = wideSchema n)
    (hz : ZeroBut t.arena 1 4294901778 fun x => x = 4294901764 ∨ x = 4294901769) :
    t.readRow ⟨1, 0⟩ = .ok (wideRow 0 n) := by
  have hcols : t.schema.columns.length = n + 1 := by
    rw [ht, wideSchema_columns, wideColumns, List.length_cons, List.length_map, List.length_range]
  have hfirst : t.readValue ⟨1, 0⟩ 0 = .ok (.int 0) := by
    refine readValue_of_holds (c := ⟨Bytes.lit "A", .int, 0⟩) ?_
      ⟨rfl, fun h => absurd h (by decide)⟩ ?_
    · rw [ht, wideSchema_columns]
      rfl
    · rw [ht, wideSchema_offset_zero]
      exact hz.holds (by decide) (by decide +kernel) fun x _ hx =>
        not_or.mpr ⟨by rintro rfl; exact absurd hx (by decide),
          by rintro rfl; exact absurd hx (by decide)⟩
  have hrest : ∀ i, i < n → t.readValue ⟨1, 0⟩ (i + 1) = .ok (.varchar []) := by
    intro i hi
    obtain ⟨hcap, hfree⟩ := wideOffset_free (i := i) (by omega)
    refine readValue_of_holds (c := ⟨wideName i, .varchar, 65535⟩) ?_
      ⟨rfl, fun _ => Nat.zero_le _⟩ ?_
    · rw [ht, wideSchema_columns, wideColumns, List.getElem?_cons_succ, List.getElem?_map,
        List.getElem?_range hi]
      rfl
    · rw [ht, wideSchema_offset hi]
      exact hz.holds hcap (show ∀ b ∈ ([0, 0] : Bytes), b = 0 by simp)
        fun x hlo hhi => not_or.mpr (hfree x hlo hhi)
  rw [Table.readRow, hcols, Table.readRowProjected, List.range_succ_eq_map, Outcome.mapM_eq_ok]
  refine .cons hfirst ?_
  rw [List.forall₂_map_left_iff, List.forall₂_map_right_iff, List.forall₂_same]
  exact fun i hi => hrest i (List.mem_range.mp hi)

/-- The row is stored with its integer wiped out and indexed under the integer
it came with. -/
theorem wide_insert (hn : n = 131069) : ∃ t',
    (wideTable n (Arena.new arenaChunkSize)).insert 1744826864 (wideRow 16777216 n) =
        .ok (t', none) ∧
      t'.schema = wideSchema n ∧ t'.rows.mapM t'.readRow = .ok [wideRow 0 n] ∧
      t'.scanAll 1744826864 = .ok [wideRow 0 n] ∧
      t'.indexRange 1744826864 .eq (.int 0) [] = .ok [] ∧
      t'.indexRange 1744826864 .eq (.int 16777216) [] = .ok [wideRow 0 n] := by
  have hrow : (wideSchema n).rowSize.toNat = 4294901761 := by
    rw [wideSchema_rowSize, hn]
    decide
  have hsize : (wideSchema n).totalRowSize.toNat = 4294901770 := by
    rw [Schema.totalRowSize, UInt32.toNat_add, hrow]
    rfl
  have hvalid : (wideSchema n).validOffset.toNat = 4294901769 := by
    rw [Schema.validOffset, UInt32.toNat_add, hrow]
    rfl
  obtain ⟨a₀, halloc, hz₀⟩ := allocate_large (show arenaChunkSize < 4294901770 by decide)
  obtain ⟨a, hwrite, hz, hexpiry, hflag⟩ := wide_write (t := wideTable n a₀) hn rfl hz₀
  have hkey : ∀ op ∈ [((.int 16777216 : Value), 0)], Comparable .int op.1 := by
    intro op hop
    rw [List.mem_singleton.mp hop]
    exact comparable_of_exact (.inl rfl) rfl
  obtain ⟨index, leaves, uppers, hindex, hinv, hcontents⟩ :=
    insertAll_inv (valueOrder .int) .int hkey
  obtain ⟨⟨index', old⟩, hins, hk⟩ := Outcome.bind_eq_ok.mp hindex
  obtain rfl : index' = index := Except.ok.inj hk
  have hpush : (wideTable n (Arena.new arenaChunkSize)).insert 1744826864 (wideRow 16777216 n) =
      .ok (pushRow (wideTable n a) a ⟨1, 0⟩ index', none) := by
    have hfirst : (wideRow 16777216 n)[(wideSchema n).pkIndex]? = some (.int 16777216) := by
      rw [wideSchema_built.pkIndex]
      rfl
    rw [Table.insert, show (wideTable n (Arena.new arenaChunkSize)).schema = wideSchema n from rfl,
      wideRow_accepted]
    simp only [wideTable, hsize, halloc, Outcome.bind_ok]
    refine (congrArg (· >>= _) hwrite).trans ?_
    simp only [Outcome.bind_ok, wideTable, hfirst]
    exact (congrArg (· >>= _) hins).trans rfl
  have hread : (pushRow (wideTable n a) a ⟨1, 0⟩ index').readRow ⟨1, 0⟩ = .ok (wideRow 0 n) :=
    wide_read hn rfl hz
  have hlive : (pushRow (wideTable n a) a ⟨1, 0⟩ index').isRowValid 1744826864 ⟨1, 0⟩ =
      .ok true := by
    have hflag' : a.read ⟨1, 0⟩ (wideSchema n).validOffset.toNat 1 = .ok [1] := by
      rw [hvalid]
      exact hflag
    have hexpiry' : a.read ⟨1, 0⟩ (wideSchema n).expiryOffset.toNat 8 =
        .ok (Bytes.le 1744830464 8) := by
      rw [Schema.expiryOffset, hrow]
      exact hexpiry
    simp only [Table.isRowValid, Table.readValid, Table.readExpiry, pushRow, wideTable, hflag',
      hexpiry', Outcome.bind_ok]
    decide
  refine ⟨_, hpush, rfl, ?_, ?_, ?_, ?_⟩
  · exact Outcome.mapM_eq_ok.mpr (.cons hread .nil)
  · exact scanRows_spec (k := fun _ : Row => true) (f := id) (.cons ⟨hlive, hread⟩ .nil)
  · have hkey : Comparable .int (.int 0) := comparable_of_exact (.inl rfl) rfl
    simp only [Table.indexRange, pushRow, hinv.rangeEq (valueOrder .int) hkey, selected, hcontents]
    rfl
  · have hkey : Comparable .int (.int 16777216) := comparable_of_exact (.inl rfl) rfl
    have hcollect : (pushRow (wideTable n a) a ⟨1, 0⟩ index').collect 1744826864 [] (.ok []) 0 =
        (.ok [wideRow 0 n], true) := by
      have hrow : (pushRow (wideTable n a) a ⟨1, 0⟩ index').rows[0]? = some ⟨1, 0⟩ := rfl
      simp only [Table.collect, Table.readSelected, List.isEmpty_nil, if_true, Outcome.bind_ok,
        hrow, hlive, hread, List.nil_append]
    have hids : selected (contents index'.pool leaves) (fun k => k.eq (.int 16777216)) = [0] := by
      rw [hcontents]
      rfl
    have hrange : (pushRow (wideTable n a) a ⟨1, 0⟩ index').pkIndex.rangeEq (.int 16777216)
        ((pushRow (wideTable n a) a ⟨1, 0⟩ index').collect 1744826864 []) (.ok []) =
        .ok (.ok [wideRow 0 n]) := by
      refine (hinv.rangeEq (valueOrder .int) hkey _).trans ?_
      rw [hids, feed, hcollect]
      rfl
    rw [Table.indexRange]
    simp only [hrange, Outcome.bind_ok]

/-- The table as a statement. -/
def wideStmt (n : Nat) : CreateTableStmt :=
  ⟨Bytes.lit "t", ⟨Bytes.lit "A", Bytes.lit "INT", 255⟩ ::
    (List.range n).map fun i => ⟨wideName i, Bytes.lit "VARCHAR", 65535⟩⟩

theorem wideStmt_schema (hn : n ≤ 456976) :
    Executor.buildSchema Schema.empty (wideStmt n).columns = .ok (wideSchema n) := by
  have hrest : ∀ (l : List Nat) (s : Schema), (∀ i ∈ l, i < 456976) →
      Executor.buildSchema s (l.map fun i => ⟨wideName i, Bytes.lit "VARCHAR", 65535⟩) =
        .ok (s.addColumns (l.map fun i => ⟨wideName i, .varchar, 65535⟩)) := by
    intro l
    induction l with
    | nil => exact fun s _ => rfl
    | cons i l ih =>
        intro s hl
        have htype : Executor.columnDataType (Bytes.lit "VARCHAR") = some .varchar := by decide
        rw [List.map_cons, Executor.buildSchema]
        simp only [htype, toUpper_wideName (hl i List.mem_cons_self)]
        exact ih _ fun j hj => hl j (List.mem_cons_of_mem _ hj)
  exact hrest (List.range n) (Schema.empty.addColumn (Bytes.lit "A") .int 255)
    fun i hi => (List.mem_range.mp hi).trans_le hn

/-- One tuple for it. -/
def wideTuple (n : Nat) : List Bytes := Bytes.lit "16777216" :: (List.range n).map fun _ => []

theorem wideTuple_parse [FloatLib] :
    Executor.parseTuple (wideSchema n) (wideTuple n) = .ok (wideRow 16777216 n) := by
  have hint : Executor.parseLiteral (Bytes.lit "16777216") .int = .ok (.int 16777216) := by
    rw [Executor.parseLiteral, show stoi (Bytes.lit "16777216") = some 16777216 by decide +kernel]
  rw [Executor.parseTuple, wideSchema_columns, if_neg (by simp [wideTuple, wideColumns]),
    Outcome.mapM_eq_ok, wideTuple, wideColumns, List.zip_cons_cons, List.zip_map']
  refine .cons hint ?_
  rw [List.forall₂_map_left_iff, List.forall₂_map_right_iff, List.forall₂_same]
  exact fun _ _ => rfl

theorem wideColumns_nodup (hn : n ≤ 456976) : ((wideColumns n).map (·.name)).Nodup := by
  rw [wideColumns, List.map_cons, List.map_map, List.nodup_cons]
  constructor
  · intro hmem
    obtain ⟨i, -, hi⟩ := List.mem_map.mp hmem
    have hlen : (wideName i).length = (Bytes.lit "A").length := congrArg List.length hi
    exact absurd hlen (show ¬ 5 = 1 by decide)
  · refine (List.nodup_map_iff_inj_on List.nodup_range).mpr fun i hi j hj hij => ?_
    rw [List.mem_range] at hi hj
    exact wideName_inj (by omega) (by omega) hij

theorem wide_created (hn : n ≤ 456976) : Executor.new.execCreateTable (wideStmt n) =
    .ok (⟨(∅ : Finmap fun _ : Bytes => Table).insert (Bytes.lit "T")
      (wideTable n (Arena.new arenaChunkSize)), Executor.new.cache⟩,
      .done (Bytes.lit "Table " ++ Bytes.lit "T" ++ Bytes.lit " created")) := by
  have hname : Bytes.toUpper (wideStmt n).tableName = Bytes.lit "T" := by
    show Bytes.toUpper (Bytes.lit "t") = _
    decide
  rw [Executor.execCreateTable, hname, wideStmt_schema hn]
  simp only [Executor.new, Finmap.lookup_empty, Option.isSome_none, Bool.false_eq_true, if_false,
    wideTable_new, Outcome.bind_ok]

/-- The executor after the two statements. -/
theorem wide_reachable [FloatLib] (hn : n = 131069) : ∃ ex t, Reachable ex ∧
    ex.tables.lookup (Bytes.lit "T") = some t ∧ t.schema = wideSchema n ∧
      t.rows.mapM t.readRow = .ok [wideRow 0 n] ∧ t.scanAll 1744826864 = .ok [wideRow 0 n] ∧
      t.indexRange 1744826864 .eq (.int 0) [] = .ok [] := by
  obtain ⟨ex, hreach, htable⟩ : ∃ ex, Reachable ex ∧
      ex.tables.lookup (Bytes.lit "T") = some (wideTable n (Arena.new arenaChunkSize)) :=
    ⟨_, .execute .new (show Executor.new.execute 1744826864 (.createTable (wideStmt n)) [] = _ from
      wide_created (by omega)), Finmap.lookup_insert _⟩
  obtain ⟨t, hins, hs, hrows, hscan, hrange, -⟩ := wide_insert hn
  obtain ⟨s, hs'⟩ := (reachable_consistent hreach).cache
  obtain ⟨cache, hcache, -⟩ := invalidateTable_refines hs' (Bytes.lit "T")
  have hrun : ex.execute 1744826864 (.insert ⟨Bytes.lit "t", [wideTuple n]⟩) [] =
      .ok (⟨ex.tables.insert (Bytes.lit "T") t, cache⟩,
        .done (Bytes.ofNat 1 ++ Bytes.lit " rows inserted")) := by
    have hparse : Executor.parseTuple (wideTable n (Arena.new arenaChunkSize)).schema
        (wideTuple n) = .ok (wideRow 16777216 n) := wideTuple_parse
    rw [Executor.execute, Executor.execInsert, show Bytes.toUpper (Bytes.lit "t") = Bytes.lit "T" by
      decide, htable]
    simp only [Executor.insertTuples, hparse, hins, Outcome.bind_ok, hcache]
  exact ⟨_, t, .execute hreach hrun, Finmap.lookup_insert _, hs, hrows, hscan, hrange⟩

end Wrapped

end FlexQL.Proofs
