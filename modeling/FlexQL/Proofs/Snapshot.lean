import FlexQL.Proofs.Insert
import FlexQL.Spec.Snapshot

/-!
# What a snapshot gives back

A snapshot of tables that store a catalog, taken while none of their rows has
expired, loads to tables that store the same catalog. Field by field this is
a round trip of bytes; above the fields the loader builds each schema column
by column and inserts each row, so the argument goes on with the schema that
the columns build and the relation that the rows fill.
-/

namespace FlexQL.Proofs

open Lib FlexQL.Ref FlexQL.Spec

/-! ## Fields -/

/-- `w` is read as `a`, whatever follows it. -/
def Parses {α : Type} (r : Bytes → Except Bytes (α × Bytes)) (w : Bytes) (a : α) : Prop :=
  ∀ rest, r (w ++ rest) = .ok (a, rest)

theorem parses_orFail {α : Type} {r : Reader α} {w : Bytes} {a : α} (h : Reader.Reads r w a)
    (error : Bytes) : Parses (Snapshot.orFail r error) w a := by
  intro rest
  rw [Snapshot.orFail, h]

theorem parses_uint {n w : Nat} (h : n < 256 ^ w) (error : Bytes) :
    Parses (Snapshot.orFail (Reader.uint w) error) (Bytes.le n w) n :=
  parses_orFail (Reader.reads_uint h) error

theorem parses_word (n w : Nat) (error : Bytes) :
    Parses (Snapshot.orFail (Reader.bytes w) error) (Bytes.le n w) (Bytes.le n w) :=
  parses_orFail (fun rest => Reader.bytes_append rest (Bytes.le_length n w)) error

theorem reads_str {s : Bytes} (h : s.length ≤ Snapshot.maxStr) :
    Reader.Reads Snapshot.readStr (Snapshot.writeStr s) s := by
  have hlt : s.length < 256 ^ 4 := Nat.lt_of_le_of_lt h (by decide)
  have hmod : s.length % 2 ^ 32 = s.length := Nat.mod_eq_of_lt hlt
  rw [Snapshot.writeStr, hmod, List.take_length]
  refine (Reader.reads_uint hlt).andThen fun rest => ?_
  rw [if_neg (Nat.not_lt.mpr h), Reader.reads_bytes]

/-- A type the loader knows. -/
def Known (type : DataType) : Prop := ∀ code, type ≠ .unknown code

theorem ofCode_code {type : DataType} (h : Known type) : Coded type := by
  cases type with
  | int => rfl
  | decimal => rfl
  | varchar => rfl
  | datetime => rfl
  | unknown code => exact absurd rfl (h code)

theorem reads_type (type : DataType) : Reader.Reads (Reader.uint 1)
    (Bytes.le type.code.toNat 1) type.code.toNat :=
  Reader.reads_uint (UInt8.toNat_lt _)

theorem reads_column {c : ColumnDef} (hname : c.name.length ≤ Snapshot.maxStr)
    (htype : Coded c.type) : Reader.Reads Snapshot.readColumn (Snapshot.writeColumn c) c := by
  rw [Snapshot.writeColumn, List.append_assoc]
  refine (reads_str hname).andThen ((reads_type c.type).andThen ?_)
  have hlen : Reader.Reads (Reader.uint 2) (Bytes.le c.maxLen.toNat 2) c.maxLen.toNat :=
    Reader.reads_uint (UInt16.toNat_lt _)
  rw [← List.append_nil (Bytes.le c.maxLen.toNat 2)]
  refine hlen.andThen fun rest => ?_
  rw [UInt8.ofNat_toNat, UInt16.ofNat_toNat, htype]
  rfl

theorem parses_columns (tableName : Bytes) {cols : List ColumnDef}
    (h : ∀ c ∈ cols, c.name.length ≤ Snapshot.maxStr ∧ Coded c.type) (s : Schema) :
    Parses (Snapshot.readColumns tableName cols.length s) (cols.flatMap Snapshot.writeColumn)
      (s.addColumns cols) := by
  induction cols generalizing s with
  | nil => intro rest; rfl
  | cons c cols ih =>
      intro rest
      obtain ⟨hname, htype⟩ := h c (by simp)
      rw [List.flatMap_cons, List.append_assoc, List.length_cons, Snapshot.readColumns,
        parses_orFail (reads_column hname htype), Outcome.bind_ok]
      exact ih (fun x hx => h x (by simp [hx])) _ rest

/-- A value that can be written. -/
structure Writes (v : Value) : Prop where
  coded : Coded v.type
  short : v.type = .varchar → v.strVal.length ≤ Snapshot.maxStr

theorem Accepts.writes {c : ColumnDef} {v : Value} (hv : Accepts c v) (htype : Coded c.type) :
    Writes v := by
  refine ⟨hv.type ▸ htype, fun hstring => ?_⟩
  have hlen : v.strVal.length < 2 ^ 16 := hv.length_lt (hv.type.symm.trans hstring)
  rw [Snapshot.maxStr]
  omega

theorem parses_value {v : Value} (hv : Writes v) :
    Parses Snapshot.readValue (Snapshot.writeValue v) v := by
  intro rest
  rw [Snapshot.writeValue, List.append_assoc, Snapshot.readValue,
    parses_orFail (reads_type v.type), Outcome.bind_ok]
  have hcoded : DataType.ofCode v.type.code = v.type := hv.coded
  simp only [UInt8.ofNat_toNat, hcoded]
  cases v with
  | int n =>
      simp only [Value.type]
      rw [parses_word, Outcome.bind_ok, int32OfBytes_le]
  | decimal bits =>
      simp only [Value.type]
      rw [parses_word, Outcome.bind_ok, bits_le]
  | varchar s =>
      have hs : s.length ≤ Snapshot.maxStr := hv.short rfl
      simp only [Value.type]
      rw [Value.strVal, parses_orFail (reads_str hs), Outcome.bind_ok]
  | datetime n =>
      simp only [Value.type]
      rw [parses_word, Outcome.bind_ok, int64OfBytes_le]
  | unknown code => rfl

theorem parses_values {row : Row} (h : ∀ v ∈ row, Writes v) :
    Parses (Snapshot.readValues row.length) (row.flatMap Snapshot.writeValue) row := by
  induction row with
  | nil => intro rest; rfl
  | cons v row ih =>
      intro rest
      have hrow := ih (fun x hx => h x (List.mem_cons_of_mem v hx)) rest
      rw [List.flatMap_cons, List.append_assoc, List.length_cons, Snapshot.readValues,
        parses_value (h v (by simp))]
      simp only [Outcome.bind_ok, hrow]

theorem parses_row (tableName : Bytes) {row : Row} (h : ∀ v ∈ row, Writes v)
    (hlen : row.length < 2 ^ 32) :
    Parses (Snapshot.readRow tableName) (Snapshot.writeRow row) row := by
  intro rest
  have hlen : row.length < 256 ^ 4 := hlen
  rw [Snapshot.writeRow, List.append_assoc, Snapshot.readRow, parses_uint hlen, Outcome.bind_ok]
  exact parses_values h rest

/-! ## Tables -/

/-- A snapshot can hold the relation under the name. -/
structure Storable (name : Bytes) (r : Rel) : Prop where
  name : name.length ≤ Snapshot.maxStr
  fits : Fits r.schema
  columns : ∀ c ∈ r.schema.columns, c.name.length ≤ Snapshot.maxStr ∧ Known c.type
  valid : ∀ row ∈ r.rows, r.schema.validateRow row = none
  count : r.rows.length < 2 ^ 64

/-- A named type takes up space, so there are fewer columns than bytes. -/
theorem length_le_extent {cols : List ColumnDef} (h : ∀ c ∈ cols, Known c.type) :
    cols.length ≤ extent cols := by
  induction cols with
  | nil => exact Nat.zero_le _
  | cons c cols ih =>
      have hc : 1 ≤ c.storageSize.toNat := by
        cases ht : c.type with
        | varchar => rw [storageSize_varchar ht]; omega
        | int | decimal | datetime => simp [ColumnDef.storageSize, ht]
        | unknown code => exact absurd ht (h c (by simp) code)
      have := ih fun x hx => h x (by simp [hx])
      rw [extent_cons, List.length_cons]
      omega

theorem Storable.columns_lt {name : Bytes} {r : Rel} (h : Storable name r) :
    r.schema.columns.length < 2 ^ 32 := by
  have := length_le_extent fun c hc => (h.columns c hc).2
  have := h.fits.size
  omega

/-- The values of a row a table takes can be written. -/
theorem Storable.writes {name : Bytes} {r : Rel} (h : Storable name r) {row : Row}
    (hv : r.schema.validateRow row = none) : ∀ v ∈ row, Writes v := by
  intro v hmem
  obtain ⟨c, hc, hacc⟩ := forall₂_mem_right (validateRow_eq_none.mp hv) hmem
  exact hacc.writes (ofCode_code (h.columns c hc).2)

theorem Storable.row_lt {name : Bytes} {r : Rel} (h : Storable name r) {row : Row}
    (hv : r.schema.validateRow row = none) : row.length < 2 ^ 32 := by
  rw [← (validateRow_eq_none.mp hv).length_eq]
  exact h.columns_lt

theorem Storable.coded {name : Bytes} {r : Rel} (h : Storable name r) :
    ∀ c ∈ r.schema.columns, c.name.length ≤ Snapshot.maxStr ∧ Coded c.type :=
  fun c hc => ⟨(h.columns c hc).1, ofCode_code (h.columns c hc).2⟩

/-- The table stores the rows as a load at `now` inserts them. -/
structure Loaded (now : Int64) (name : Bytes) (t : Table) (r : Rel) : Prop where
  stores : Rep t (recordsOf defaultTtlSeconds now r.rows)
  name : t.name = name
  schema : t.schema = r.schema
  ttl : t.ttlSeconds = defaultTtlSeconds

theorem recordsOf_values (ttl : UInt32) (now : Int64) (rows : List Row) :
    (recordsOf ttl now rows).map (·.values) = rows := by
  rw [recordsOf, List.map_map]
  exact List.map_id'' (fun _ => rfl) rows

theorem Loaded.models {now : Int64} {name : Bytes} {t : Table} {r : Rel}
    (h : Loaded now name t r) : TableModels name t r := by
  refine ⟨⟨_, h.stores, recordsOf_values _ _ _, fun rec hrec => ?_⟩, h.name, h.schema, h.ttl⟩
  obtain ⟨row, -, rfl⟩ := List.mem_map.mp hrec
  rfl

/-- The loader's loop inserts the rows one by one. -/
theorem loadRows_loaded {name : Bytes} {r : Rel} (h : Storable name r) {now : Int64}
    {stored rows : List Row} (hrows : r.rows = stored ++ rows) {t : Table}
    (ht : Loaded now name t ⟨r.schema, stored⟩) (rest : Bytes) :
    ∃ t', Snapshot.loadRows now name rows.length t (rows.flatMap Snapshot.writeRow ++ rest)
        = .ok (.ok (t', rest)) ∧ Loaded now name t' r := by
  induction rows generalizing stored t with
  | nil =>
      rw [List.append_nil] at hrows
      subst hrows
      exact ⟨t, rfl, ht⟩
  | cons row rows ih =>
      have hcons : r.rows = (stored ++ [row]) ++ rows := by simp [hrows]
      have hv : r.schema.validateRow row = none := h.valid row (by simp [hrows])
      obtain ⟨t₁, hins, hrep, hs, httl⟩ := ht.stores.insert_stored (by rwa [ht.schema]) now
      have hname : t₁.name = t.name := (ht.stores.insert_ok hins).2.2.1
      rw [ht.ttl] at hrep httl
      obtain ⟨t', hload, ht'⟩ := ih hcons
        ⟨by rw [recordsOf, List.map_append]; exact hrep, hname.trans ht.name, hs.trans ht.schema,
          httl⟩
      refine ⟨t', ?_, ht'⟩
      rw [List.flatMap_cons, List.append_assoc, List.length_cons, Snapshot.loadRows,
        parses_row name (h.writes hv) (h.row_lt hv)]
      simp only [hins, Outcome.bind_ok]
      exact hload

/-- A schema is the one its own columns build. -/
theorem addColumns_columns (cols : List ColumnDef) :
    Schema.empty.addColumns (Schema.empty.addColumns cols).columns
      = Schema.empty.addColumns cols := by
  have hsnoc : ∀ (l : List ColumnDef) (c : ColumnDef), Schema.empty.addColumns (l ++ [c])
      = (Schema.empty.addColumns l).addColumn c.name c.type c.maxLen := by
    intro l c
    rw [Schema.addColumns, List.foldl_append]
    rfl
  induction cols using List.reverseRecOn with
  | nil => rfl
  | append_singleton cols c ih =>
      have hcols : ((Schema.empty.addColumns cols).addColumn c.name c.type c.maxLen).columns
          = (Schema.empty.addColumns cols).columns ++
            [⟨c.name, c.type, if c.type = .varchar then c.maxLen else 0⟩] := rfl
      rw [hsnoc cols c, hcols, hsnoc, ih]
      -- the length was cut when the column went in first
      simp only [Schema.addColumn]
      split <;> rfl

theorem Storable.addColumns {name : Bytes} {r : Rel} (h : Storable name r) :
    Schema.empty.addColumns r.schema.columns = r.schema := by
  obtain ⟨cols, hcols⟩ := h.fits.built
  rw [hcols, addColumns_columns]

/-- The bytes of a name and a schema. -/
def schemaBytes (name : Bytes) (cols : List ColumnDef) : Bytes :=
  Snapshot.writeStr name ++ (Bytes.le cols.length 4 ++ cols.flatMap Snapshot.writeColumn)

theorem writeTable_eq (name : Bytes) (schema : Schema) (rows : List Row) :
    Snapshot.writeTable name schema rows = schemaBytes name schema.columns ++
      (Bytes.le rows.length 8 ++ rows.flatMap Snapshot.writeRow) := by
  simp only [Snapshot.writeTable, schemaBytes, List.append_assoc]

theorem parses_schema {name : Bytes} {cols : List ColumnDef}
    (hname : name.length ≤ Snapshot.maxStr)
    (hcols : ∀ c ∈ cols, c.name.length ≤ Snapshot.maxStr ∧ Coded c.type)
    (hlen : cols.length < 2 ^ 32) :
    Parses Snapshot.readSchema (schemaBytes name cols) (name, Schema.empty.addColumns cols) := by
  intro rest
  have hlen : cols.length < 256 ^ 4 := hlen
  simp only [schemaBytes, List.append_assoc]
  rw [Snapshot.readSchema, parses_orFail (reads_str hname), Outcome.bind_ok]
  dsimp only
  rw [parses_uint hlen, Outcome.bind_ok]
  dsimp only
  rw [parses_columns name hcols]
  rfl

theorem loadTable_loaded {name : Bytes} {r : Rel} (h : Storable name r) (now : Int64)
    (rest : Bytes) :
    ∃ t, Snapshot.loadTable now (Snapshot.writeTable name r.schema r.rows ++ rest)
        = .ok (.ok ((name, t), rest)) ∧ Loaded now name t r := by
  have hcount : r.rows.length < 256 ^ 8 := h.count
  have hschema := parses_schema h.name h.coded h.columns_lt
  rw [h.addColumns] at hschema
  obtain ⟨t₀, hnew, hrep, hname, hs, httl⟩ := rep_new name h.fits defaultTtlSeconds
  obtain ⟨t, hload, ht⟩ := loadRows_loaded h (List.nil_append _).symm
    (⟨hrep, hname, hs, httl⟩ : Loaded now name t₀ ⟨r.schema, []⟩) rest
  refine ⟨t, ?_, ht⟩
  rw [writeTable_eq, List.append_assoc, List.append_assoc, Snapshot.loadTable, hschema]
  simp only [hnew, Outcome.bind_ok]
  rw [parses_uint hcount]
  simp only [hload, Outcome.bind_ok]

/-! ## The whole file -/

theorem loadTables_loaded {entries : List (Bytes × Rel)}
    (h : ∀ e ∈ entries, Storable e.1 e.2) {now : Int64} {m : Finmap fun _ : Bytes => Table}
    {c : Catalog} (hm : MapRel (Loaded now) m c) (rest : Bytes) :
    ∃ m', Snapshot.loadTables now entries.length m
        ((entries.flatMap fun e => Snapshot.writeTable e.1 e.2.schema e.2.rows) ++ rest)
        = .ok (.ok m') ∧
      MapRel (Loaded now) m' (entries.foldl (fun c e => Finmap.insert e.1 e.2 c) c) := by
  induction entries generalizing m c with
  | nil => exact ⟨m, rfl, hm⟩
  | cons e entries ih =>
      obtain ⟨t, hload, ht⟩ := loadTable_loaded (h e (by simp)) now
        ((entries.flatMap fun e => Snapshot.writeTable e.1 e.2.schema e.2.rows) ++ rest)
      obtain ⟨m', hrun, hm'⟩ := ih (fun x hx => h x (by simp [hx])) (hm.insert ht)
      refine ⟨m', ?_, hm'⟩
      rw [List.flatMap_cons, List.append_assoc, List.length_cons, Snapshot.loadTables, hload]
      exact hrun

theorem parses_header (lsn : UInt64) {n : Nat} (hn : n < 2 ^ 32) :
    Parses Snapshot.readHeader (Snapshot.writeHeader lsn n) (lsn, n) := by
  intro rest
  have hmagic : Snapshot.magic < 256 ^ 8 := by decide
  have hversion : Snapshot.version < 256 ^ 8 := by decide
  have hlsn : lsn.toNat < 256 ^ 8 := UInt64.toNat_lt _
  have hcount : n < 256 ^ 4 := hn
  simp only [Snapshot.writeHeader, List.append_assoc]
  rw [Snapshot.readHeader, parses_uint hmagic]
  simp only [Outcome.bind_ok, ne_eq, not_true_eq_false, if_false]
  rw [parses_uint hversion]
  simp only [Outcome.bind_ok, not_true_eq_false, if_false]
  rw [parses_uint hlsn]
  simp only [Outcome.bind_ok]
  rw [parses_uint hcount]
  simp only [Outcome.bind_ok, UInt64.ofNat_toNat]

/-- The file loads to the catalog, with the sequence number. -/
def Covers (file : Bytes) (lsn : UInt64) (c : Catalog) : Prop :=
  (∃ n rest, Snapshot.readHeader file = .ok ((lsn, n), rest)) ∧
    ∀ now, ∃ m, Snapshot.load now file = .ok (.ok ⟨lsn, m⟩) ∧ Models m c

/-- The names in the catalog are ones a snapshot can hold. -/
def Named (c : Catalog) : Prop :=
  ∀ name r, c.lookup name = some r → name.length ≤ Snapshot.maxStr ∧
    ∀ col ∈ r.schema.columns, col.name.length ≤ Snapshot.maxStr ∧ Known col.type

/-- A map with one table. -/
theorem enumerates_single {m : Finmap fun _ : Bytes => Table} {name : Bytes} {t : Table}
    (hcard : m.keys.card = 1) (ht : m.lookup name = some t) : Enumerates [(name, t)] m := by
  refine ⟨by simp, fun name' t' => ?_⟩
  rw [List.mem_singleton, Prod.mk.injEq]
  constructor
  · rintro ⟨rfl, rfl⟩
    exact ht
  · intro ht'
    obtain ⟨only, honly⟩ := Finset.card_eq_one.mp hcard
    have hmem : ∀ {n x}, m.lookup n = some x → n = only := by
      intro n x hx
      rw [← Finset.mem_singleton, ← honly, Finmap.mem_keys, Finmap.mem_iff]
      exact ⟨x, hx⟩
    obtain rfl : name' = name := (hmem ht').trans (hmem ht).symm
    exact ⟨rfl, Option.some.inj (ht'.symm.trans ht)⟩

theorem Enumerates.length_eq {tables : List (Bytes × Table)}
    {m : Finmap fun _ : Bytes => Table} (h : Enumerates tables m) :
    tables.length = m.keys.card := by
  have hkeys : (tables.map (·.1)).toFinset = m.keys := by
    ext name
    rw [List.mem_toFinset, Finmap.mem_keys, Finmap.mem_iff]
    constructor
    · intro hname
      obtain ⟨p, hp, rfl⟩ := List.mem_map.mp hname
      exact ⟨p.2, (h.mem p.1 p.2).mp hp⟩
    · intro ⟨t, ht⟩
      exact List.mem_map.mpr ⟨(name, t), (h.mem name t).mpr ht, rfl⟩
  rw [← hkeys, List.toFinset_card_of_nodup h.nodup, List.length_map]

section Save

variable {m : Finmap fun _ : Bytes => Table} {c : Catalog} {tables : List (Bytes × Table)}

theorem Rep.row_of_mem {t : Table} {rs : List Record} (h : Rep t rs) {rec : Record}
    (hrec : rec ∈ rs) : ∃ p ∈ t.rows, RowAt t.schema t.arena p rec :=
  forall₂_mem_right h.rows hrec

theorem TableModels.storable {name : Bytes} {t : Table} {r : Rel} (h : TableModels name t r)
    (hname : name.length ≤ Snapshot.maxStr)
    (hcols : ∀ col ∈ r.schema.columns, col.name.length ≤ Snapshot.maxStr ∧ Known col.type)
    (hcount : t.rows.length < 2 ^ 64) : Storable name r := by
  obtain ⟨rs, hrep, hrows, _⟩ := h.stores
  refine ⟨hname, h.schema ▸ hrep.fits, hcols, ?_, ?_⟩
  · intro row hrow
    rw [← hrows] at hrow
    obtain ⟨rec, hrec, rfl⟩ := List.mem_map.mp hrow
    obtain ⟨p, _, hat⟩ := hrep.row_of_mem hrec
    rw [← h.schema]
    exact validateRow_eq_none.mpr hat.values.accepts
  · rw [← hrows, List.length_map, ← hrep.rows.length_eq]
    exact hcount

/-- A table none of whose rows has expired is saved whole. -/
theorem TableModels.saveTable {name : Bytes} {t : Table} {r : Rel} (h : TableModels name t r)
    {now : Int64} (hlive : Unexpired now t) :
    Snapshot.saveTable now (name, t) = .ok (Snapshot.writeTable name r.schema r.rows) := by
  obtain ⟨rs, hrep, hrows, hvalid⟩ := h.stores
  have hall : ∀ rec ∈ rs, rec.live now = true := by
    intro rec hrec
    obtain ⟨p, hp, hat⟩ := hrep.row_of_mem hrec
    rw [Record.live, hvalid rec hrec]
    rcases hlive p hp _ (hat.readExpiry hrep.fits) with hle | hle
    · simp [Int64.not_lt.mpr hle]
    · simp [Int64.not_lt.mpr hle]
  rw [Snapshot.saveTable, hrep.scanAll, List.filter_eq_self.mpr hall, hrows, Outcome.bind_ok,
    h.schema]

/-- The bytes of the table are those of the relation, and load. -/
structure Saved (now : Int64) (name : Bytes) (t : Table) (r : Rel) : Prop where
  bytes : Snapshot.saveTable now (name, t) = .ok (Snapshot.writeTable name r.schema r.rows)
  storable : Storable name r

/-- The relation of a name that is in the catalog. -/
def relOf (c : Catalog) (name : Bytes) : Rel := (c.lookup name).getD ⟨Schema.empty, []⟩

theorem relOf_eq {name : Bytes} {r : Rel} (h : c.lookup name = some r) : relOf c name = r := by
  rw [relOf, h, Option.getD_some]

/-- Putting the entries of a catalog into a map one after another. -/
theorem foldl_insert_lookup {entries : List (Bytes × Rel)}
    (h : ∀ e ∈ entries, c.lookup e.1 = some e.2) (c₀ : Catalog) (name : Bytes) :
    (entries.foldl (fun c e => Finmap.insert e.1 e.2 c) c₀).lookup name
      = if name ∈ entries.map (·.1) then c.lookup name else c₀.lookup name := by
  induction entries generalizing c₀ with
  | nil => simp
  | cons e entries ih =>
      rw [List.foldl_cons, ih fun x hx => h x (by simp [hx])]
      by_cases hmem : name ∈ entries.map (·.1)
      · rw [if_pos hmem, if_pos (by simp only [List.map_cons, List.mem_cons]; exact .inr hmem)]
      · rw [if_neg hmem]
        by_cases hne : name = e.1
        · rw [hne, Finmap.lookup_insert, if_pos (by simp), h e (by simp)]
        · rw [Finmap.lookup_insert_of_ne _ hne, if_neg]
          simp only [List.map_cons, List.mem_cons, not_or]
          exact ⟨hne, hmem⟩

/-- What `save` writes loads, table by table. -/
theorem contents_loads {now : Int64} (hsaved : MapRel (Saved now) m c)
    (horder : Enumerates tables m) (hcard : tables.length < 2 ^ 32) (lsn : UInt64) :
    ∃ file, Snapshot.contents now tables lsn = .ok file ∧
      (∃ n rest, Snapshot.readHeader file = .ok ((lsn, n), rest)) ∧
      ∀ now', ∃ m', Snapshot.load now' file = .ok (.ok ⟨lsn, m'⟩) ∧ MapRel (Loaded now') m' c := by
  have hrel : ∀ p ∈ tables, c.lookup p.1 = some (relOf c p.1) ∧
      Saved now p.1 p.2 (relOf c p.1) := by
    intro p hp
    obtain ⟨r, hr, hs⟩ := hsaved.left ((horder.mem p.1 p.2).mp hp)
    rw [relOf_eq hr]
    exact ⟨hr, hs⟩
  let entries := tables.map fun p => (p.1, relOf c p.1)
  have hlen : entries.length = tables.length := List.length_map _
  have hsave : tables.mapM (Snapshot.saveTable now)
      = .ok (entries.map fun e => Snapshot.writeTable e.1 e.2.schema e.2.rows) := by
    rw [Outcome.mapM_eq_ok, List.map_map, List.forall₂_map_right_iff, List.forall₂_same]
    exact fun p hp => (hrel p hp).2.bytes
  have hentries : ∀ e ∈ entries, c.lookup e.1 = some e.2 ∧ Storable e.1 e.2 := by
    intro e he
    obtain ⟨p, hp, rfl⟩ := List.mem_map.mp he
    exact ⟨(hrel p hp).1, (hrel p hp).2.storable⟩
  have hcatalog : entries.foldl (fun c e => Finmap.insert e.1 e.2 c) ∅ = c := by
    refine Finmap.ext_lookup fun name => ?_
    rw [foldl_insert_lookup fun e he => (hentries e he).1]
    split
    · rfl
    · next hnot =>
        cases hc : c.lookup name with
        | none => rfl
        | some r =>
            obtain ⟨t, ht, _⟩ := hsaved.right hc
            refine absurd ?_ hnot
            rw [List.map_map]
            exact List.mem_map.mpr ⟨(name, t), (horder.mem name t).mpr ht, rfl⟩
  have hheader := parses_header lsn hcard
  refine ⟨_, by rw [Snapshot.contents, hsave, Outcome.bind_ok], ⟨_, _, hheader _⟩, ?_⟩
  intro now'
  obtain ⟨m', hload, hm'⟩ := loadTables_loaded (fun e he => (hentries e he).2)
    (MapRel.empty (R := Loaded now')) []
  rw [hcatalog] at hm'
  rw [List.append_nil] at hload
  refine ⟨m', ?_, hm'⟩
  rw [Snapshot.load, hheader, ← List.flatMap_def, ← hlen]
  simp only [hload, Outcome.bind_ok]

/-- What `save` writes for tables that store a catalog loads to the catalog. -/
theorem contents_covers (hm : Models m c) (hnamed : Named c) (horder : Enumerates tables m)
    {now : Int64} (hlive : ∀ p ∈ tables, Unexpired now p.2) (hcard : tables.length < 2 ^ 32)
    (hcount : ∀ name t, m.lookup name = some t → t.rows.length < 2 ^ 64) (lsn : UInt64) :
    ∃ file, Snapshot.contents now tables lsn = .ok file ∧ Covers file lsn c := by
  have hsaved : MapRel (Saved now) m c := hm.mapRel.imp fun name t r ht hr hmod =>
    ⟨hmod.saveTable (hlive (name, t) ((horder.mem name t).mpr ht)),
      hmod.storable (hnamed name r hr).1 (hnamed name r hr).2 (hcount name t ht)⟩
  obtain ⟨file, hfile, hheader, hload⟩ := contents_loads hsaved horder hcard lsn
  refine ⟨file, hfile, hheader, fun now' => ?_⟩
  obtain ⟨m', hrun, hm'⟩ := hload now'
  exact ⟨m', hrun, hm'.imp fun _ _ _ _ _ ht => ht.models⟩

end Save

end FlexQL.Proofs
