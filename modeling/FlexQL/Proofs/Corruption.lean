import FlexQL.Lib.Crc
import FlexQL.Proofs.Wal

/-!
# Damage the log notices

The reader recomputes the checksum of what it reads. A record of which up to
four bytes in a row were overwritten, in its sequence number or in its text,
has a checksum of its own, so the reading ends there. A text that is longer
than the reader takes ends it too, and nothing in the writer keeps such a text
out.
-/

namespace FlexQL.Proofs

open Lib FlexQL.Ref FlexQL.Spec

/-! ## The checksum -/

theorem crc32Compute_eq (data : Bytes) :
    crc32Compute data = Crc.run crc32Table 0xFFFFFFFF data ^^^ 0xFFFFFFFF := rfl

/-- The table is the shift register, a byte at a time. -/
theorem crc32Compute_bitwise (data : Bytes) : crc32Compute data = crc32 data := by
  rw [crc32Compute_eq, crc32, Crc.feedAll_eq]
  rfl

example : crc32Compute (Bytes.lit "123456789") = 0xCBF43926 := by decide +kernel

/-- A step of the register backwards: its top bit tells whether the polynomial
came in. -/
def unshift (crc : UInt32) : UInt32 :=
  if 0x80000000 ≤ crc then ((crc ^^^ 0xEDB88320) <<< 1) ||| 1 else crc <<< 1

/-- Eight steps back from the top byte of a word lead to its place. -/
theorem crc32Table_unshift : ∀ i, ((List.range 8).foldl (fun crc _ => unshift crc)
    ((crc32Table i >>> 24) <<< 24)).toUInt8 = i :=
  Bytes.forall_byte (by decide +kernel)

theorem crc32Table_topBytes : Crc.TopBytes crc32Table := by
  intro i j h
  have hbyte : ∀ i, (crc32Table i).toNat >>> 24 = (crc32Table i >>> 24).toNat := fun i => by
    rw [UInt32.toNat_shiftRight]
    rfl
  rw [hbyte, hbyte, UInt32.toNat_inj] at h
  rw [← crc32Table_unshift i, h, crc32Table_unshift]

/-- Up to four bytes in a row that were overwritten show in the checksum. -/
theorem crc32Compute_patch {data new : Bytes} {pos : Nat} (hpos : pos + new.length ≤ data.length)
    (hnew : new.length ≤ 4) (h : crc32Compute (Bytes.patch data pos new) = crc32Compute data) :
    Bytes.patch data pos new = data := by
  have hdata : data = data.take pos ++ (data.drop pos).take new.length ++
      data.drop (pos + new.length) := by
    rw [← List.drop_drop, List.append_assoc, List.take_append_drop, List.take_append_drop]
  rw [crc32Compute_eq, crc32Compute_eq, UInt32.xor_left_inj] at h
  rw [Bytes.patch]
  conv at h => rhs; rw [hdata]
  have hsame : new = (data.drop pos).take new.length :=
    Crc.run_burst crc32Table_topBytes (by rw [List.length_take, List.length_drop]; omega) hnew h
  conv_rhs => rw [hdata]
  rw [← hsame]

/-! ## A damaged record -/

/-- The reader on bytes in the shape of a record: it asks for the checksum. -/
theorem readRecord_shape {crc : UInt32} {lsn sql : Bytes} {len : Nat} (hlsn : lsn.length = 8)
    (hlen : sql.length = len) (hmax : len ≤ WALRecord.maxPayload)
    (hcrc : crc32Compute (lsn ++ Bytes.le len 4 ++ sql) ≠ crc) (rest : Bytes) :
    WALReader.readRecord (Bytes.le WALRecord.magic 4 ++ (Bytes.le crc.toNat 4 ++
      (lsn ++ Bytes.le len 4 ++ sql ++ rest))) = none := by
  have hlen4 : len < 256 ^ 4 := Nat.lt_of_le_of_lt hmax (by decide)
  have hback : Bytes.le (Bytes.leNat lsn) 8 = lsn := by rw [← hlsn, Bytes.le_leNat]
  have hlsn8 : Bytes.leNat lsn < 256 ^ 8 := hlsn ▸ Bytes.leNat_lt lsn
  have hread := Reader.reads_uint hlsn8
  rw [hback] at hread
  simp only [WALReader.readRecord, List.append_assoc, Option.bind_eq_bind]
  rw [Reader.reads_uint (show WALRecord.magic < 256 ^ 4 by decide)]
  simp only [Option.bind_some, ne_eq, not_true_eq_false, if_false]
  rw [Reader.reads_uint (UInt32.toNat_lt crc), Option.bind_some, hread, Option.bind_some,
    Reader.reads_uint hlen4, Option.bind_some]
  simp only [Nat.not_lt.mpr hmax, if_false]
  rw [Reader.bytes_append rest hlen, Option.bind_some]
  have hsum : (WALRecord.checksum (Bytes.leNat lsn) len sql).toNat ≠ crc.toNat := by
    rw [WALRecord.checksum, hback]
    exact fun h => hcrc (UInt32.toNat_inj.mp h)
  simp only [hsum, not_false_eq_true, if_true]

/-- The part of a record its checksum covers. -/
def covered (r : WALRecord) : Bytes :=
  Bytes.le r.lsn.toNat 8 ++ Bytes.le r.sql.length 4 ++ r.sql

theorem encode_eq (r : WALRecord) : r.encode = Bytes.le WALRecord.magic 4 ++
    Bytes.le (crc32Compute (covered r)).toNat 4 ++ covered r := by
  simp only [WALRecord.encode, WALRecord.checksum, covered, List.append_assoc]

theorem covered_length (r : WALRecord) : (covered r).length = 12 + r.sql.length := by
  simp only [covered, List.length_append, Bytes.le_length]

/-- Overwriting in the sequence number or in the text keeps the shape. -/
theorem patch_covered {r : WALRecord} {pos : Nat} {new : Bytes}
    (h : InField 0 r (8 + pos) new.length) :
    ∃ lsn sql, Bytes.patch (covered r) pos new = lsn ++ Bytes.le r.sql.length 4 ++ sql ∧
      lsn.length = 8 ∧ sql.length = r.sql.length := by
  rcases h with ⟨-, hle⟩ | ⟨hge, hle⟩
  · refine ⟨Bytes.patch (Bytes.le r.lsn.toNat 8) pos new, r.sql, ?_, ?_, rfl⟩
    · rw [covered, List.append_assoc, Bytes.patch_append_left (by rw [Bytes.le_length]; omega),
        List.append_assoc]
    · rw [Bytes.patch_length (by rw [Bytes.le_length]; omega), Bytes.le_length]
  · obtain ⟨k, rfl⟩ : ∃ k, pos = 12 + k := ⟨pos - 12, by omega⟩
    refine ⟨Bytes.le r.lsn.toNat 8, Bytes.patch r.sql k new, ?_, Bytes.le_length _ _, ?_⟩
    · rw [covered, ← Bytes.patch_append_right, List.length_append, Bytes.le_length,
        Bytes.le_length]
    · exact Bytes.patch_length (by omega)

theorem readRecord_damaged {r : WALRecord} (hr : r.sql.length ≤ WALRecord.maxPayload) {pos : Nat}
    {new : Bytes} (hfield : InField 0 r (8 + pos) new.length) (hnew : new.length ≤ 4)
    (hchanged : Bytes.patch r.encode (8 + pos) new ≠ r.encode) (rest : Bytes) :
    WALReader.readRecord (Bytes.patch r.encode (8 + pos) new ++ rest) = none := by
  have hin : pos + new.length ≤ (covered r).length := by
    rw [covered_length]
    rcases hfield with ⟨-, hle⟩ | ⟨-, hle⟩ <;> omega
  have hpatch : Bytes.patch r.encode (8 + pos) new = Bytes.le WALRecord.magic 4 ++
      Bytes.le (crc32Compute (covered r)).toNat 4 ++ Bytes.patch (covered r) pos new := by
    rw [encode_eq, ← Bytes.patch_append_right, List.length_append, Bytes.le_length,
      Bytes.le_length]
  have hcrc : crc32Compute (Bytes.patch (covered r) pos new) ≠ crc32Compute (covered r) := by
    intro h
    rw [hpatch, crc32Compute_patch hin hnew h] at hchanged
    exact hchanged (encode_eq r).symm
  obtain ⟨lsn, sql, hshape, hlsn, hsql⟩ := patch_covered hfield
  rw [hpatch, hshape, List.append_assoc, List.append_assoc]
  rw [hshape] at hcrc
  exact readRecord_shape hlsn hsql hr hcrc rest

/-- A damaged record is never accepted: the reader returns the records before
it. -/
theorem readAll_damaged {calls : List WalCall}
    (hcalls : ∀ sql, WalCall.append sql ∈ calls → sql.length ≤ WALRecord.maxPayload)
    {i pos : Nat} {r : WALRecord} {new : Bytes} (hnew : new.length ≤ 4) :
    let s := (WalTrace.opened none).run calls
    s.kept[i]? = some r →
    InField ((s.kept.take i).flatMap WALRecord.encode).length r pos new.length →
    Bytes.patch s.file pos new ≠ s.file →
    WALReader.readAll (Bytes.patch s.file pos new) = s.kept.take i := by
  intro s hr hfield hchanged
  have hw : Written [] 1 s := written_run written_fresh hcalls fun _ => rfl
  obtain ⟨hi, rfl⟩ := List.getElem?_eq_some_iff.mp hr
  have hshort := hw.short s.kept[i] (List.getElem_mem hi)
  obtain ⟨k, rfl⟩ : ∃ k, pos = ((s.kept.take i).flatMap WALRecord.encode).length + (8 + k) := by
    have hge : ((s.kept.take i).flatMap WALRecord.encode).length + 8 ≤ pos := by
      rcases hfield with ⟨hge, -⟩ | ⟨hge, -⟩ <;> omega
    obtain ⟨k, rfl⟩ := Nat.exists_eq_add_of_le hge
    exact ⟨k, Nat.add_assoc _ 8 k⟩
  have hfield : InField 0 s.kept[i] (8 + k) new.length := by
    rcases hfield with ⟨hge, hle⟩ | ⟨hge, hle⟩
    · exact .inl ⟨by omega, by omega⟩
    · exact .inr ⟨by omega, by omega⟩
  have hin : 8 + k + new.length ≤ (s.kept[i]).encode.length := by
    rw [encode_eq, List.length_append, List.length_append, covered_length, Bytes.le_length,
      Bytes.le_length]
    rcases hfield with ⟨-, hle⟩ | ⟨-, hle⟩ <;> omega
  have hfile : s.file = (s.kept.take i).flatMap WALRecord.encode ++ ((s.kept[i]).encode ++
      (s.kept.drop (i + 1)).flatMap WALRecord.encode) := by
    rw [hw.file, List.nil_append, ← List.flatMap_cons, ← List.drop_eq_getElem_cons hi,
      ← List.flatMap_append, List.take_append_drop]
  rw [hfile, Bytes.patch_append_right, Bytes.patch_append_left hin] at hchanged ⊢
  have hrecord : Bytes.patch (s.kept[i]).encode (8 + k) new ≠ (s.kept[i]).encode :=
    fun h => hchanged (by rw [h])
  rw [readAll_append _ fun x hx => hw.short x (List.mem_of_mem_take hx),
    readAll_none (readRecord_damaged hshort hfield hnew hrecord _), List.append_nil]

/-- The second of three statements with its first character overwritten. -/
theorem readAll_damaged_second :
    let s := (WalTrace.opened none).run
      [.append (Bytes.lit "A"), .append (Bytes.lit "BC"), .append (Bytes.lit "D")]
    Bytes.patch s.file 41 (Bytes.lit "X") ≠ s.file ∧
      WALReader.readAll (Bytes.patch s.file 41 (Bytes.lit "X")) = s.kept.take 1 := by
  intro s
  have hchanged : Bytes.patch s.file 41 (Bytes.lit "X") ≠ s.file := by decide +kernel
  have hstart : ((s.kept.take 1).flatMap WALRecord.encode).length = 21 := by decide +kernel
  refine ⟨hchanged, readAll_damaged (i := 1) (r := ⟨2, Bytes.lit "BC"⟩) ?_ (by decide)
    (by decide +kernel) (.inr ?_) hchanged⟩
  · simp [WALRecord.maxPayload, Bytes.lit]
  · rw [hstart]
    decide

/-! ## Texts the reader does not take -/

theorem readAll_short {file : Bytes} {r : WALRecord} (h : r ∈ WALReader.readAll file) :
    r.sql.length ≤ WALRecord.maxPayload := by
  induction hlen : file.length using Nat.strongRecOn generalizing file with
  | ind len ih =>
      subst hlen
      cases hread : WALReader.readRecord file with
      | none =>
          rw [readAll_none hread] at h
          exact absurd h (by simp)
      | some p =>
          rw [readAll_cons hread] at h
          rcases List.mem_cons.mp h with rfl | h
          · exact (readRecord_split hread).2
          · exact ih _ (WALReader.readRecord_lt hread) h rfl

theorem mem_numbered (lsn : UInt64) {sqls : List Bytes} {sql : Bytes} (h : sql ∈ sqls) :
    ∃ r ∈ numbered lsn sqls, r.sql = sql := by
  induction sqls generalizing lsn with
  | nil => exact absurd h (by simp)
  | cons s sqls ih =>
      rw [numbered]
      rcases List.mem_cons.mp h with rfl | h
      · exact ⟨_, List.mem_cons_self, rfl⟩
      · obtain ⟨r, hr, hsql⟩ := ih _ h
        exact ⟨r, List.mem_cons_of_mem _ hr, hsql⟩

/-- The log gives back what was appended just when the reader takes every
text. -/
theorem readAll_appended_iff (sqls : List Bytes) :
    let s := (WalTrace.opened none).run (sqls.map .append)
    WALReader.readAll s.file = s.kept ↔ ∀ sql ∈ sqls, sql.length ≤ WALRecord.maxPayload := by
  intro s
  obtain ⟨hkept, hfile⟩ := run_appends (s := WalTrace.opened none) sqls
  have hkept : s.kept = numbered (WalTrace.opened none).writer.nextLsn sqls := hkept
  have hfile : s.file = s.kept.flatMap WALRecord.encode := by
    rw [hkept]
    exact hfile
  rw [hfile]
  constructor
  · intro h sql hsql
    obtain ⟨r, hr, rfl⟩ := mem_numbered (WalTrace.opened none).writer.nextLsn hsql
    rw [← hkept, ← h] at hr
    exact readAll_short hr
  · intro h
    exact readAll_encode (hkept ▸ numbered_short h)

theorem readRecord_long {r : WALRecord} (hmax : WALRecord.maxPayload < r.sql.length)
    (hlen : r.sql.length < 256 ^ 4) (rest : Bytes) :
    WALReader.readRecord (r.encode ++ rest) = none := by
  have hcrc : (WALRecord.checksum r.lsn.toNat r.sql.length r.sql).toNat < 256 ^ 4 :=
    UInt32.toNat_lt _
  have hlsn : r.lsn.toNat < 256 ^ 8 := UInt64.toNat_lt _
  simp only [WALReader.readRecord, WALRecord.encode, List.append_assoc, Option.bind_eq_bind]
  rw [Reader.reads_uint (show WALRecord.magic < 256 ^ 4 by decide)]
  simp only [Option.bind_some, ne_eq, not_true_eq_false, if_false]
  rw [Reader.reads_uint hcrc, Option.bind_some, Reader.reads_uint hlsn, Option.bind_some,
    Reader.reads_uint hlen, Option.bind_some]
  simp only [hmax, if_true]

/-- A statement of one byte too many, and the one behind it is lost too. -/
theorem readAll_loses_long : ∃ sql : Bytes, sql.length = 10485761 ∧
    let s := (WalTrace.opened none).run ([sql, Bytes.lit "B"].map .append)
    s.kept.length = 2 ∧ WALReader.readAll s.file = [] := by
  obtain ⟨sql, hsql⟩ : ∃ sql : Bytes, sql.length = 10485761 :=
    ⟨List.replicate 10485761 65, List.length_replicate⟩
  refine ⟨sql, hsql, ?_⟩
  obtain ⟨hkept, hfile⟩ := run_appends (s := WalTrace.opened none) [sql, Bytes.lit "B"]
  rw [show (WalTrace.opened none).file = [] from rfl, numbered, List.flatMap_cons,
    List.nil_append] at hfile
  refine ⟨by rw [hkept]; rfl, ?_⟩
  rw [hfile]
  exact readAll_none (readRecord_long (by rw [hsql]; decide) (by rw [hsql]; decide) _)

/-! ## Any file -/

/-- Of a file of any bytes the reader takes the records it begins with, as
many as there are: a list of records that fit begins the file if and only if
it begins what is read. -/
theorem readAll_leads_iff (file : Bytes) :
    (∀ r ∈ WALReader.readAll file, r.sql.length ≤ WALRecord.maxPayload) ∧
      ∀ recs : List WALRecord, (∀ r ∈ recs, r.sql.length ≤ WALRecord.maxPayload) →
        (recs.flatMap WALRecord.encode <+: file ↔ recs <+: WALReader.readAll file) := by
  refine ⟨fun r hr => readAll_short hr, fun recs hshort => ⟨?_, ?_⟩⟩
  · rintro ⟨rest, rfl⟩
    rw [readAll_append rest hshort]
    exact List.prefix_append _ _
  · rintro ⟨more, hmore⟩
    obtain ⟨rest, hfile, -⟩ := readAll_split hmore.symm
    rw [hfile, List.flatMap_append, List.append_assoc]
    exact List.prefix_append _ _

end FlexQL.Proofs
