import FlexQL.Lib.Outcome
import FlexQL.Lib.Reader

/-!
# The write-ahead log (`wal.h`, `wal.cpp`)

The log is a file of records, each with a magic number, a checksum, a
sequence number and the text of a statement. What the writer has written is
in the file when the call returns. Of a record the fields that are constant
or can be computed from the others are left out.
-/

namespace FlexQL.Ref

open Lib

/-- The entry of `crc32_table` for a byte: eight steps of the register. -/
def crc32Table (i : UInt8) : UInt32 :=
  (List.range 8).foldl (fun crc _ =>
    if crc &&& 1 = 1 then (crc >>> 1) ^^^ 0xEDB88320 else crc >>> 1) i.toUInt32

/-- `crc32_compute` -/
def crc32Compute (data : Bytes) : UInt32 :=
  let crc := data.foldl (fun (crc : UInt32) b =>
    (crc >>> 8) ^^^ crc32Table (crc ^^^ b.toUInt32).toUInt8) 0xFFFFFFFF
  crc ^^^ 0xFFFFFFFF

/-- `WALRecord` -/
structure WALRecord where
  lsn : UInt64
  sql : Bytes
  deriving DecidableEq, Repr

namespace WALRecord

/-- `MAGIC` -/
def magic : Nat := 0xDA7ABA5E

/-- The longest text the reader takes. -/
def maxPayload : Nat := 10 * 1024 * 1024

/-- The checksum covers the sequence number, the length and the text. -/
def checksum (lsn : Nat) (payloadLen : Nat) (sql : Bytes) : UInt32 :=
  crc32Compute (Bytes.le lsn 8 ++ Bytes.le payloadLen 4 ++ sql)

/-- The bytes of a record in the file. -/
def encode (r : WALRecord) : Bytes :=
  Bytes.le magic 4 ++ Bytes.le (checksum r.lsn.toNat r.sql.length r.sql).toNat 4 ++
    Bytes.le r.lsn.toNat 8 ++ Bytes.le r.sql.length 4 ++ r.sql

end WALRecord

/-- `WALWriter`; the file is kept apart. -/
structure WALWriter where
  nextLsn : UInt64

namespace WALReader

/-- `read_record`; `none` at the end and at a record that is torn or damaged. -/
def readRecord (file : Bytes) : Option (WALRecord × Bytes) := do
  let (magic, file) ← Reader.uint 4 file
  if magic ≠ WALRecord.magic then none
  else
    let (crc, file) ← Reader.uint 4 file
    let (lsn, file) ← Reader.uint 8 file
    let (payloadLen, file) ← Reader.uint 4 file
    if WALRecord.maxPayload < payloadLen then none
    else
      let (sql, file) ← Reader.bytes payloadLen file
      if (WALRecord.checksum lsn payloadLen sql).toNat ≠ crc then none
      else some (⟨UInt64.ofNat lsn, sql⟩, file)

theorem readRecord_lt {file rest : Bytes} {r : WALRecord}
    (h : readRecord file = some (r, rest)) : rest.length < file.length := by
  obtain ⟨⟨magic, s₁⟩, h₁, h⟩ := Option.bind_eq_some_iff.mp h
  have hl₁ : s₁.length + 4 = file.length := Reader.uint_length h₁
  dsimp only at h
  split at h
  · exact absurd h (by simp)
  obtain ⟨⟨crc, s₂⟩, h₂, h⟩ := Option.bind_eq_some_iff.mp h
  have hl₂ : s₂.length + 4 = s₁.length := Reader.uint_length h₂
  obtain ⟨⟨lsn, s₃⟩, h₃, h⟩ := Option.bind_eq_some_iff.mp h
  have hl₃ : s₃.length + 8 = s₂.length := Reader.uint_length h₃
  obtain ⟨⟨len, s₄⟩, h₄, h⟩ := Option.bind_eq_some_iff.mp h
  have hl₄ : s₄.length + 4 = s₃.length := Reader.uint_length h₄
  dsimp only at h
  split at h
  · exact absurd h (by simp)
  obtain ⟨⟨sql, s₅⟩, h₅, h⟩ := Option.bind_eq_some_iff.mp h
  have hl₅ : s₅.length + len = s₄.length := Reader.bytes_length h₅
  dsimp only at h
  split at h
  · exact absurd h (by simp)
  obtain ⟨_, rfl⟩ := Prod.mk.inj (Option.some.inj h)
  omega

/-- `read_all` -/
def readAll (file : Bytes) : List WALRecord :=
  match h : readRecord file with
  | none => []
  | some (r, rest) =>
      have : rest.length < file.length := readRecord_lt h
      r :: readAll rest
termination_by file.length

/-- The loop of `replay` over the records; counts the calls. -/
def replayRecords {σ : Type} (cb : σ → WALRecord → Outcome (σ × Bool)) :
    σ → Nat → List WALRecord → Outcome (σ × Nat)
  | s, count, [] => .ok (s, count)
  | s, count, r :: rs => do
      let (s, go) ← cb s r
      if go then replayRecords cb s (count + 1) rs else .ok (s, count + 1)

/-- `replay`; the callback cannot touch the file. -/
def replay {σ : Type} (cb : σ → WALRecord → Outcome (σ × Bool)) (s : σ) (file : Bytes) :
    Outcome (σ × Nat) :=
  replayRecords cb s 0 (readAll file)

end WALReader

namespace WALWriter

/-- The constructor: the file is created if it is not there, and the next
sequence number follows the last record that can be read. -/
def new (file : Option Bytes) : WALWriter × Bytes :=
  let content := file.getD []
  (⟨match (WALReader.readAll content).getLast? with
    | some r => r.lsn + 1
    | none => 1⟩, content)

/-- `append`; the number returned is the record's. -/
def append (w : WALWriter) (file : Bytes) (sql : Bytes) : (WALWriter × Bytes) × UInt64 :=
  ((⟨w.nextLsn + 1⟩, file ++ (WALRecord.mk w.nextLsn sql).encode), w.nextLsn)

/-- `truncate`; the sequence numbers go on. -/
def truncate (w : WALWriter) : WALWriter × Bytes := (w, [])

/-- `current_lsn` -/
def currentLsn (w : WALWriter) : UInt64 := w.nextLsn

end WALWriter

end FlexQL.Ref
