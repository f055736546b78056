import FlexQL.Proofs.RoundTrip
import FlexQL.Proofs.Storage

/-!
# Snapshots that broke off

A snapshot has neither a checksum nor an end mark, but every count stands
before what it counts. So a file that ends within a table, a row or a field
runs out while something is still announced, and the loader fails there. That
rests on the number of tables: it is written with 32 bits, and a file of more
tables than that announces too few.
-/

namespace FlexQL.Proofs

open Lib FlexQL.Ref FlexQL.Spec

/-! ## Fields -/

/-- The reader fails on a stream that ends within `w`. -/
def Guards {β : Type} (r : Bytes → Except Bytes β) (w : Bytes) : Prop :=
  ∀ p, Reader.Cut p w → ∃ e, r p = .error e

theorem guards_nil {β : Type} {r : Bytes → Except Bytes β} : Guards r [] :=
  fun _ h => absurd h Reader.not_cut_nil

theorem guards_orFail {α : Type} {r : Reader α} {w : Bytes} (h : Reader.Refuses r w)
    (error : Bytes) : Guards (Snapshot.orFail r error) w := by
  intro p hp
  rw [Snapshot.orFail, h p hp]
  exact ⟨error, rfl⟩

theorem guards_uint (n w : Nat) (error : Bytes) :
    Guards (Snapshot.orFail (Reader.uint w) error) (Bytes.le n w) :=
  guards_orFail (Reader.refuses_uint n w) error

/-- One read after another. -/
theorem Guards.bind {α β : Type} {r : Bytes → Except Bytes (α × Bytes)}
    {k : α × Bytes → Except Bytes β} {w v : Bytes} {a : α} (hw : Guards r w) (hr : Parses r w a)
    (hv : Guards (fun s => k (a, s)) v) : Guards (fun s => r s >>= k) (w ++ v) := by
  intro p hp
  rcases hp.append with hcut | ⟨q, rfl, hcut⟩
  · obtain ⟨e, he⟩ := hw p hcut
    exact ⟨e, by simp only [he, Outcome.bind_error]⟩
  · obtain ⟨e, he⟩ := hv q hcut
    exact ⟨e, by simp only [hr q, Outcome.bind_ok, he]⟩

theorem refuses_str (s : Bytes) : Reader.Refuses Snapshot.readStr (Snapshot.writeStr s) := by
  have hlt : s.length % 2 ^ 32 < 256 ^ 4 := Nat.mod_lt _ (by decide)
  have hlen : (s.take (s.length % 2 ^ 32)).length = s.length % 2 ^ 32 := by
    rw [List.length_take]
    exact Nat.min_eq_left (Nat.mod_le _ _)
  rw [Snapshot.writeStr]
  refine (Reader.refuses_uint _ 4).andThen (Reader.reads_uint hlt) fun p hp => ?_
  split
  · rfl
  · rw [← hlen]
    exact Reader.refuses_bytes _ p hp

theorem refuses_column {c : ColumnDef} (hname : c.name.length ≤ Snapshot.maxStr) :
    Reader.Refuses Snapshot.readColumn (Snapshot.writeColumn c) := by
  have hlen : Reader.Reads (Reader.uint 2) (Bytes.le c.maxLen.toNat 2) c.maxLen.toNat :=
    Reader.reads_uint (UInt16.toNat_lt _)
  rw [Snapshot.writeColumn, List.append_assoc, ← List.append_nil (Bytes.le c.maxLen.toNat 2)]
  refine (refuses_str c.name).andThen (reads_str hname) ?_
  refine (Reader.refuses_uint _ 1).andThen (reads_type c.type) ?_
  exact (Reader.refuses_uint _ 2).andThen hlen fun p hp => absurd hp Reader.not_cut_nil

theorem guards_columns (tableName : Bytes) {cols : List ColumnDef}
    (h : ∀ c ∈ cols, c.name.length ≤ Snapshot.maxStr ∧ Coded c.type) (s : Schema) :
    Guards (Snapshot.readColumns tableName cols.length s) (cols.flatMap Snapshot.writeColumn) := by
  induction cols generalizing s with
  | nil => exact guards_nil
  | cons c cols ih =>
      obtain ⟨hname, htype⟩ := h c (by simp)
      rw [List.flatMap_cons, List.length_cons]
      exact (guards_orFail (refuses_column hname) _).bind
        (parses_orFail (reads_column hname htype) _)
        (ih (fun x hx => h x (List.mem_cons_of_mem c hx)) _)

theorem guards_value {v : Value} (hv : Writes v) :
    Guards Snapshot.readValue (Snapshot.writeValue v) := by
  have hcoded : DataType.ofCode v.type.code = v.type := hv.coded
  have hword : ∀ n w error, Guards (Snapshot.orFail (Reader.bytes w) error) (Bytes.le n w) := by
    intro n w error
    refine guards_orFail (fun p hp => Reader.bytes_short ?_) error
    simpa using hp.length_lt
  refine (guards_uint _ 1 _).bind (parses_orFail (reads_type v.type) _) ?_
  simp only [UInt8.ofNat_toNat, hcoded]
  cases v with
  | int n =>
      rw [← List.append_nil (Bytes.le _ 4)]
      exact (hword _ 4 _).bind (parses_word _ 4 _) guards_nil
  | decimal bits =>
      rw [← List.append_nil (Bytes.le _ 8)]
      exact (hword _ 8 _).bind (parses_word _ 8 _) guards_nil
  | varchar s =>
      rw [← List.append_nil (Snapshot.writeStr _)]
      exact (guards_orFail (refuses_str s) _).bind
        (parses_orFail (reads_str (hv.short rfl)) _) guards_nil
  | datetime n =>
      rw [← List.append_nil (Bytes.le _ 8)]
      exact (hword _ 8 _).bind (parses_word _ 8 _) guards_nil
  | unknown code => exact guards_nil

theorem guards_values {row : Row} (h : ∀ v ∈ row, Writes v) :
    Guards (Snapshot.readValues row.length) (row.flatMap Snapshot.writeValue) := by
  induction row with
  | nil => exact guards_nil
  | cons v row ih =>
      have hrest : ∀ x ∈ row, Writes x := fun x hx => h x (List.mem_cons_of_mem v hx)
      rw [List.flatMap_cons, List.length_cons, ← List.append_nil (row.flatMap _)]
      exact (guards_value (h v (by simp))).bind (parses_value (h v (by simp)))
        ((ih hrest).bind (parses_values hrest) guards_nil)

theorem guards_row (tableName : Bytes) {row : Row} (h : ∀ v ∈ row, Writes v)
    (hlen : row.length < 2 ^ 32) :
    Guards (Snapshot.readRow tableName) (Snapshot.writeRow row) :=
  (guards_uint _ 4 _).bind (parses_uint hlen _) (guards_values h)

theorem guards_schema {name : Bytes} {cols : List ColumnDef}
    (hname : name.length ≤ Snapshot.maxStr)
    (hcols : ∀ c ∈ cols, c.name.length ≤ Snapshot.maxStr ∧ Coded c.type)
    (hlen : cols.length < 2 ^ 32) :
    Guards Snapshot.readSchema (schemaBytes name cols) := by
  rw [schemaBytes, ← List.append_nil (cols.flatMap _)]
  refine (guards_orFail (refuses_str name) _).bind (parses_orFail (reads_str hname) _) ?_
  refine (guards_uint _ 4 _).bind (parses_uint hlen _) ?_
  exact (guards_columns name hcols _).bind (parses_columns name hcols _) guards_nil

theorem guards_header (lsn : UInt64) (n : Nat) :
    Guards Snapshot.readHeader (Snapshot.writeHeader lsn n) := by
  have hmagic : Snapshot.magic < 256 ^ 8 := by decide
  have hversion : Snapshot.version < 256 ^ 8 := by decide
  have hlsn : lsn.toNat < 256 ^ 8 := UInt64.toNat_lt _
  rw [Snapshot.writeHeader, List.append_assoc, List.append_assoc]
  refine (guards_uint _ 8 _).bind (parses_uint hmagic _) ?_
  refine (guards_uint _ 8 _).bind (parses_uint hversion _) ?_
  refine (guards_uint _ 8 _).bind (parses_uint hlsn _) fun p hp => ?_
  obtain ⟨e, he⟩ := guards_uint n 4 (Bytes.lit "Cannot read table count from snapshot") p hp
  exact ⟨e, by simp only [he, Outcome.bind_error]⟩

/-- What a reader does with a stream that agrees with `w` as far as both go. -/
theorem Guards.cases {α : Type} {r : Bytes → Except Bytes (α × Bytes)} {w s : Bytes} {a : α}
    (hw : Guards r w) (hr : Parses r w a) (hs : Reader.Meets s w) :
    (∃ e, r s = .error e) ∨ ∃ rest, s = w ++ rest ∧ r s = .ok (a, rest) := by
  rcases hs.cases with hcut | ⟨rest, rfl⟩
  · exact .inl (hw s hcut)
  · exact .inr ⟨rest, rfl, hr rest⟩

/-! ## Tables -/

/-- The loader reports an error, or goes astray in memory, which it cannot do
if the rows fit their layout. -/
def Stops {α : Type} (fits : Prop) (x : Outcome (Except Bytes α)) : Prop :=
  (∃ e, x = .ok (.error e)) ∨ ¬ fits ∧ ∃ f, x = .error f

theorem Stops.bind {α β : Type} {fits : Prop} {x : Outcome (Except Bytes α)}
    {k : Except Bytes α → Outcome (Except Bytes β)} (h : Stops fits x)
    (hk : ∀ e, ∃ e', k (.error e) = .ok (.error e')) : Stops fits (x >>= k) := by
  rcases h with ⟨e, rfl⟩ | ⟨hfits, f, rfl⟩
  · exact .inl (hk e)
  · exact .inr ⟨hfits, f, rfl⟩

section Load

variable {fits : Prop} {now : Int64}

theorem loadRows_stops (name : Bytes) {rows : List Row}
    (h : ∀ row ∈ rows, (∀ v ∈ row, Writes v) ∧ row.length < 2 ^ 32) {t : Table}
    (ht : fits → ∃ rs, Rep t rs) {s : Bytes}
    (hs : Reader.Meets s (rows.flatMap Snapshot.writeRow)) :
    Stops fits (Snapshot.loadRows now name rows.length t s) ∨
      ∃ t' rest, s = rows.flatMap Snapshot.writeRow ++ rest ∧
        Snapshot.loadRows now name rows.length t s = .ok (.ok (t', rest)) := by
  induction rows generalizing t s with
  | nil => exact .inr ⟨t, s, rfl, rfl⟩
  | cons row rows ih =>
      obtain ⟨hvalues, hlen⟩ := h row (by simp)
      have hguards := guards_row name hvalues hlen
      rw [List.flatMap_cons] at hs ⊢
      rw [List.length_cons, Snapshot.loadRows]
      rcases hs.append with hcut | ⟨q, rfl, hq⟩
      · obtain ⟨e, he⟩ := hguards s hcut
        rw [he]
        exact .inl (.inl ⟨e, rfl⟩)
      · rw [parses_row name hvalues hlen]
        dsimp only
        cases hins : t.insert now row with
        | error f =>
            refine .inl (.inr ⟨fun hfits => ?_, f, rfl⟩)
            obtain ⟨rs, hrep⟩ := ht hfits
            obtain ⟨x, hx⟩ := hrep.insert_returns now row
            exact absurd (hins.symm.trans hx) (by simp)
        | ok x =>
            obtain ⟨t', e⟩ := x
            cases e with
            | some e => exact .inl (.inl ⟨_, rfl⟩)
            | none =>
                have ht' : fits → ∃ rs, Rep t' rs := by
                  intro hfits
                  obtain ⟨rs, hrep⟩ := ht hfits
                  exact ⟨_, (hrep.insert_ok hins).1⟩
                rcases ih (fun x hx => h x (List.mem_cons_of_mem row hx)) ht' hq with
                  hstop | ⟨t₁, rest, rfl, hrun⟩
                · exact .inl hstop
                · exact .inr ⟨t₁, rest, (List.append_assoc _ _ _).symm, hrun⟩

/-- What a table of a file is made of. -/
structure Printed (name : Bytes) (cols : List ColumnDef) (rows : List Row) : Prop where
  name : name.length ≤ Snapshot.maxStr
  count : cols.length < 2 ^ 32
  columns : ∀ c ∈ cols, c.name.length ≤ Snapshot.maxStr ∧ Coded c.type
  values : ∀ row ∈ rows, (∀ v ∈ row, Writes v) ∧ row.length < 2 ^ 32
  length : rows.length < 2 ^ 64

theorem loadTable_stops {name : Bytes} {schema : Schema} {rows : List Row}
    (h : Printed name schema.columns rows)
    (hfits : fits → Fits (Schema.empty.addColumns schema.columns)) {s : Bytes}
    (hs : Reader.Meets s (Snapshot.writeTable name schema rows)) :
    Stops fits (Snapshot.loadTable now s) ∨
      ∃ x rest, s = Snapshot.writeTable name schema rows ++ rest ∧
        Snapshot.loadTable now s = .ok (.ok (x, rest)) := by
  have hparse := parses_schema h.name h.columns h.count
  have hlen : rows.length < 256 ^ 8 := h.length
  rw [writeTable_eq] at hs ⊢
  rw [Snapshot.loadTable]
  rcases hs.append with hcut | ⟨s₁, rfl, hs₁⟩
  · obtain ⟨e, he⟩ := guards_schema h.name h.columns h.count s hcut
    rw [he]
    exact .inl (.inl ⟨e, rfl⟩)
  · rw [hparse]
    dsimp only
    cases hnew : Table.new name (Schema.empty.addColumns schema.columns) defaultTtlSeconds with
    | error f =>
        refine .inl (.inr ⟨fun hf => ?_, f, rfl⟩)
        obtain ⟨t, ht, -⟩ := rep_new name (hfits hf) defaultTtlSeconds
        exact absurd (hnew.symm.trans ht) (by simp)
    | ok t =>
        have ht : fits → ∃ rs, Rep t rs := by
          intro hf
          obtain ⟨t', ht', hrep, -⟩ := rep_new name (hfits hf) defaultTtlSeconds
          obtain rfl := Except.ok.inj (hnew.symm.trans ht')
          exact ⟨[], hrep⟩
        rw [Outcome.bind_ok]
        rcases hs₁.append with hcut | ⟨s₂, rfl, hs₂⟩
        · obtain ⟨e, he⟩ := guards_uint rows.length 8
            (Bytes.lit "Cannot read row count for table: " ++ name) s₁ hcut
          rw [he]
          exact .inl (.inl ⟨e, rfl⟩)
        · rw [parses_uint hlen]
          dsimp only
          rcases loadRows_stops name h.values ht hs₂ with hstop | ⟨t', rest, rfl, hrun⟩
          · exact .inl (hstop.bind fun e => ⟨e, rfl⟩)
          · refine .inr ⟨(name, t'), rest, by simp only [List.append_assoc], ?_⟩
            rw [hrun, Outcome.bind_ok]

/-- The bytes are those of a table. -/
def PrintedTable (fits : Prop) (part : Bytes) : Prop :=
  ∃ name schema rows, part = Snapshot.writeTable name schema rows ∧
    Printed name schema.columns rows ∧ (fits → Fits (Schema.empty.addColumns schema.columns))

theorem loadTables_stops {parts : List Bytes} (h : ∀ part ∈ parts, PrintedTable fits part)
    (m : Finmap fun _ : Bytes => Table) {p : Bytes} (hp : Reader.Cut p parts.flatten) :
    Stops fits (Snapshot.loadTables now parts.length m p) := by
  induction parts generalizing m p with
  | nil => exact absurd hp Reader.not_cut_nil
  | cons part parts ih =>
      obtain ⟨name, schema, rows, rfl, hprinted, hfits⟩ := h part (by simp)
      rw [List.flatten_cons] at hp
      rw [List.length_cons, Snapshot.loadTables]
      rcases hp.append with hcut | ⟨q, rfl, hq⟩
      · rcases loadTable_stops hprinted hfits hcut.meets with hstop | ⟨x, rest, rfl, -⟩
        · exact hstop.bind fun e => ⟨e, rfl⟩
        · exact absurd hcut.length_lt (by simp)
      · rcases @loadTable_stops fits now _ _ _ hprinted hfits _ (Reader.meets_append _ q) with
          hstop | ⟨x, rest, heq, hrun⟩
        · exact hstop.bind fun e => ⟨e, rfl⟩
        · obtain rfl := List.append_cancel_left heq
          rw [hrun, Outcome.bind_ok]
          exact ih (fun x hx => h x (List.mem_cons_of_mem _ hx)) _ hq

/-- Of a file that is cut off, no table is taken. -/
theorem load_stops {parts : List Bytes} (h : ∀ part ∈ parts, PrintedTable fits part)
    (hcount : parts.length < 2 ^ 32) (lsn : UInt64) {p : Bytes}
    (hp : Reader.Cut p (Snapshot.writeHeader lsn parts.length ++ parts.flatten)) :
    Stops fits (Snapshot.load now p) := by
  rw [Snapshot.load]
  rcases hp.append with hcut | ⟨q, rfl, hq⟩
  · obtain ⟨e, he⟩ := guards_header lsn parts.length p hcut
    rw [he]
    exact .inl ⟨e, rfl⟩
  · rw [parses_header lsn hcount]
    exact (loadTables_stops h ∅ hq).bind fun e => ⟨e, rfl⟩

end Load

/-! ## Files that were written -/

section Files

variable {now : Int64} {tables : List (Bytes × Table)} {lsn : UInt64} {file : Bytes}

theorem readValue_writes {t : Table} (h : ∀ c ∈ t.schema.columns, Coded c.type) {p : Ptr}
    {i : Nat} {v : Value} (hv : t.readValue p i = .ok v) : Writes v := by
  rw [Table.readValue] at hv
  cases hc : t.schema.columns[i]? with
  | none =>
      rw [hc] at hv
      exact absurd hv (by simp)
  | some c =>
      have hcoded : Coded c.type := h c (List.mem_of_getElem? hc)
      simp only [hc] at hv
      cases htype : c.type with
      | int | decimal | datetime =>
          simp only [htype] at hv
          obtain ⟨w, -, hv⟩ := Outcome.bind_eq_ok.mp hv
          obtain rfl := Except.ok.inj hv
          exact ⟨rfl, fun hstr => absurd hstr (by simp [Value.type])⟩
      | varchar =>
          simp only [htype] at hv
          obtain ⟨w, hw, hv⟩ := Outcome.bind_eq_ok.mp hv
          obtain ⟨s, hs, hv⟩ := Outcome.bind_eq_ok.mp hv
          obtain rfl := Except.ok.inj hv
          have hlt := Bytes.leNat_lt w
          rw [read_length hw] at hlt
          -- the length stands in two bytes of the row
          refine ⟨rfl, fun _ => ?_⟩
          rw [Value.strVal, read_length hs, Snapshot.maxStr]
          omega
      | unknown code =>
          simp only [htype] at hv
          obtain rfl := Except.ok.inj hv
          rw [htype] at hcoded
          exact ⟨hcoded, fun hstr => absurd hstr (by simp [Value.type])⟩

theorem savable_printed {name : Bytes} {t : Table} (h : Savable name t) {rows : List Row}
    (hscan : t.scanAll now = .ok rows) : Printed name t.schema.columns rows := by
  obtain ⟨qs, hsub, hread⟩ := scanRows_ok hscan
  refine ⟨h.name, h.count, h.columns, fun row hrow => ?_, ?_⟩
  · obtain ⟨q, -, hq⟩ := forall₂_mem_right hread hrow
    refine ⟨fun v hv => ?_, (readRow_length hq).trans_lt h.count⟩
    obtain ⟨i, -, hi⟩ := Outcome.exists_of_mem_mapM hq hv
    exact readValue_writes (fun c hc => (h.columns c hc).2) hi
  · exact (hread.length_eq.symm.trans_le hsub.length_le).trans_lt h.rows

/-- A file that ends too early is rejected, if it does not announce too few
tables. -/
theorem contents_cut (h : ∀ q ∈ tables, Savable q.1 q.2) (hcount : tables.length < 2 ^ 32)
    (hfile : Snapshot.contents now tables lsn = .ok file) {p : Bytes} (hp : Reader.Cut p file)
    (now' : Int64) : Stops (∀ q ∈ tables, Fits q.2.schema) (Snapshot.load now' p) := by
  obtain ⟨parts, hparts, hfile⟩ := Outcome.bind_eq_ok.mp hfile
  obtain rfl := Except.ok.inj hfile
  rw [Outcome.mapM_eq_ok] at hparts
  rw [hparts.length_eq] at hp hcount
  refine load_stops (fun part hpart => ?_) hcount lsn hp
  obtain ⟨q, hq, hsave⟩ := forall₂_mem_right hparts hpart
  obtain ⟨rows, hscan, hpart⟩ := Outcome.bind_eq_ok.mp hsave
  obtain rfl := Except.ok.inj hpart
  refine ⟨q.1, q.2.schema, rows, rfl, savable_printed (h q hq) hscan, fun hfits => ?_⟩
  obtain ⟨⟨cols, hcols⟩, hpk, hsize⟩ := hfits q hq
  rw [hcols, addColumns_columns, ← hcols]
  exact ⟨⟨cols, hcols⟩, hpk, hsize⟩

theorem writeHeader_mod (lsn : UInt64) (n : Nat) :
    Snapshot.writeHeader lsn (n % 2 ^ 32) = Snapshot.writeHeader lsn n := by
  have hlow : Bytes.le (n % 2 ^ 32) 4 = Bytes.le n 4 := Bytes.le_mod n 4
  rw [Snapshot.writeHeader, Snapshot.writeHeader, hlow]

theorem writeTable_ne_nil (name : Bytes) (schema : Schema) (rows : List Row) :
    Snapshot.writeTable name schema rows ≠ [] := by
  intro h
  have hlen := congrArg List.length h
  simp [Snapshot.writeTable] at hlen

/-- What is written for tables that can be stored. -/
theorem contents_storing (h : ∀ q ∈ tables, Storing q.1 q.2) (now : Int64) (lsn : UInt64) :
    Snapshot.contents now tables lsn = .ok (Snapshot.writeHeader lsn tables.length ++
      (tables.map fun q => (q.1, visible now q.2)).flatMap
        fun e => Snapshot.writeTable e.1 e.2.schema e.2.rows) := by
  have hsave : tables.mapM (Snapshot.saveTable now) = .ok ((tables.map fun q =>
      (q.1, visible now q.2)).map fun e => Snapshot.writeTable e.1 e.2.schema e.2.rows) := by
    rw [Outcome.mapM_eq_ok, List.map_map, List.forall₂_map_right_iff, List.forall₂_same]
    exact fun q hq => (storing_saved (h q hq) now).bytes
  rw [Snapshot.contents, hsave, Outcome.bind_ok, List.flatMap_def]

/-- A load takes the tables that are announced, and passes over what follows. -/
theorem load_announced (h : ∀ q ∈ tables, Storing q.1 q.2) (now now' : Int64) (lsn : UInt64)
    (rest : Bytes) :
    ∃ m, Snapshot.load now' (Snapshot.writeHeader lsn tables.length ++
      (((tables.map fun q => (q.1, visible now q.2)).take (tables.length % 2 ^ 32)).flatMap
        (fun e => Snapshot.writeTable e.1 e.2.schema e.2.rows) ++ rest)) =
      .ok (.ok ⟨lsn, m⟩) := by
  have hlt : tables.length % 2 ^ 32 < 2 ^ 32 := Nat.mod_lt _ (by decide)
  have hle : tables.length % 2 ^ 32 ≤ tables.length := Nat.mod_le _ _
  rw [← writeHeader_mod]
  generalize tables.length % 2 ^ 32 = k at hlt hle ⊢
  have hstorable : ∀ e ∈ (tables.map fun q => (q.1, visible now q.2)).take k,
      Storable e.1 e.2 := by
    intro e he
    obtain ⟨q, hq, rfl⟩ := List.mem_map.mp (List.mem_of_mem_take he)
    exact (storing_saved (h q hq) now).storable
  have hlen : ((tables.map fun q => (q.1, visible now q.2)).take k).length = k := by
    rw [List.length_take, List.length_map]
    exact Nat.min_eq_left hle
  obtain ⟨m, hload, -⟩ := loadTables_loaded hstorable (MapRel.empty (R := Loaded now')) rest
  rw [hlen] at hload
  refine ⟨m, ?_⟩
  rw [Snapshot.load, parses_header lsn hlt]
  simp only [hload, Outcome.bind_ok]

/-- A whole file loads, even if not to all its tables. -/
theorem load_contents (h : ∀ q ∈ tables, Storing q.1 q.2)
    (hfile : Snapshot.contents now tables lsn = .ok file) (now' : Int64) :
    ∃ r, Snapshot.load now' file = .ok (.ok r) := by
  rw [contents_storing h] at hfile
  obtain rfl := Except.ok.inj hfile
  rw [← List.take_append_drop (tables.length % 2 ^ 32) (tables.map _), List.flatMap_append]
  obtain ⟨m, hm⟩ := load_announced h now now' lsn _
  exact ⟨_, hm⟩

/-- A file of too many tables announces only some, and loads when the others
are cut off. -/
theorem load_overfull (h : ∀ q ∈ tables, Storing q.1 q.2)
    (hfile : Snapshot.contents now tables lsn = .ok file) (hcount : 2 ^ 32 ≤ tables.length) :
    ∃ p, Reader.Cut p file ∧ ∀ now', ∃ m, Snapshot.load now' p = .ok (.ok ⟨lsn, m⟩) := by
  have hlt : tables.length % 2 ^ 32 < tables.length :=
    (Nat.mod_lt _ (by decide)).trans_le hcount
  have hdrop : (tables.map fun q => (q.1, visible now q.2)).drop (tables.length % 2 ^ 32) ≠ [] := by
    rw [ne_eq, List.drop_eq_nil_iff, List.length_map]
    omega
  obtain ⟨e, rest, he⟩ := List.exists_cons_of_ne_nil hdrop
  rw [contents_storing h] at hfile
  obtain rfl := Except.ok.inj hfile
  refine ⟨_, ?_, fun now' => load_announced h now now' lsn []⟩
  refine Reader.Cut.append_left ?_ _
  rw [List.append_nil]
  nth_rewrite 2 [← List.take_append_drop (tables.length % 2 ^ 32) (tables.map _)]
  rw [List.flatMap_append, he, List.flatMap_cons]
  refine ⟨List.prefix_append _ _, fun heq => ?_⟩
  have hnil := (List.append_eq_nil_iff.mp (List.append_right_eq_self.mp heq.symm)).1
  exact writeTable_ne_nil _ _ _ hnil

theorem rejected_iff {p : Bytes} :
    Rejected p ↔ ∀ now, ∃ e, Snapshot.load now p = .ok (.error e) := by
  refine ⟨fun h now => (h now).1, fun h now => ⟨h now, fun db => ?_⟩⟩
  obtain ⟨e, he⟩ := h now
  rw [Database.loadSnapshot, he]
  rfl

theorem storing_fits {name : Bytes} {t : Table} (h : Storing name t) : Fits t.schema :=
  have hs := grown_settled h.grown
  ⟨hs.built, hs.pk, h.size⟩

theorem storing_savable {name : Bytes} {t : Table} (h : Storing name t) : Savable name t := by
  have hlen := length_le_extent fun c hc => (h.columns c hc).2
  have hsize := h.size
  exact ⟨h.name, by omega, fun c hc => ⟨(h.columns c hc).1, ofCode_code (h.columns c hc).2⟩, h.rows⟩

theorem exists_enumerated {tables : List (Bytes × Table)} (h : (tables.map (·.1)).Nodup) :
    ∃ m, Enumerates tables m := by
  have hkeys : (tables.map fun q => (⟨q.1, q.2⟩ : Sigma fun _ : Bytes => Table)).NodupKeys := by
    rw [List.NodupKeys, List.keys, List.map_map]
    exact h
  refine ⟨(tables.map fun q => (⟨q.1, q.2⟩ : Sigma fun _ : Bytes => Table)).toFinmap, h,
    fun name t => ?_⟩
  rw [Finmap.dlookup_list_toFinmap, ← Option.mem_def, List.mem_dlookup_iff hkeys, List.mem_map]
  constructor
  · intro hq
    exact ⟨(name, t), hq, rfl⟩
  · rintro ⟨⟨name', t'⟩, hq, heq⟩
    cases heq
    exact hq

/-- A table with one row, which can be stored under any name. -/
theorem exists_storing : ∃ t : Table, t.scanAll 0 = .ok [[.int 2, .int 5]] ∧
    t.schema.columns = pairSchema.columns ∧
      ∀ name : Bytes, name.length ≤ Snapshot.maxStr → Storing name t := by
  have hrun : (do
      let t ← Table.new (Bytes.lit "T") pairSchema defaultTtlSeconds
      let filled ← t.insert 0 [.int 2, .int 5]
      let rows ← filled.1.scanAll 0
      .ok (rows, filled.1.schema.columns, filled.1.rows.length) : Outcome _) =
        .ok ([[.int 2, .int 5]], pairSchema.columns, 1) := by
    decide +kernel
  obtain ⟨t₀, hnew, hrun⟩ := Outcome.bind_eq_ok.mp hrun
  obtain ⟨⟨t, e⟩, hins, hrun⟩ := Outcome.bind_eq_ok.mp hrun
  obtain ⟨rows, hscan, hrun⟩ := Outcome.bind_eq_ok.mp hrun
  simp only [Except.ok.injEq, Prod.mk.injEq] at hrun
  obtain ⟨rfl, hcols, hlen⟩ := hrun
  exact ⟨t, hscan, hcols, fun name hname => ⟨.insert (.new hnew) hins, hname,
    hcols ▸ pairSchema_columns, by rw [hcols]; decide, by rw [hlen]; decide⟩⟩

end Files

end FlexQL.Proofs
