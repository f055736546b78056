import FlexQL.Lib.Register
import FlexQL.Ref.Wal

/-!
# A log writer at work

The checksum of a record by its definition, and the calls of one writer on one
file, with what they returned. Beside the file stands what it is for: the
records appended since the log was last emptied, each under the number its call
returned.
-/

namespace FlexQL.Spec

open Lib FlexQL.Ref

/-- CRC-32 as it is defined: the message through the shift register bit by
bit, the polynomial reflected. -/
def crc32 (data : Bytes) : UInt32 := Crc.feedAll 0xEDB88320 0xFFFFFFFF data ^^^ 0xFFFFFFFF

/-- A call of the writer. -/
inductive WalCall where
  | append (sql : Bytes)
  | truncate
  deriving DecidableEq, Repr

structure WalTrace where
  writer : WALWriter
  file : Bytes
  /-- What `append` returned, the first call first. -/
  returned : List UInt64
  kept : List WALRecord

namespace WalTrace

/-- A writer opened on a file; `none` if there is no file. -/
def opened (file : Option Bytes) : WalTrace :=
  let (w, file) := WALWriter.new file
  ⟨w, file, [], []⟩

def step (s : WalTrace) : WalCall → WalTrace
  | .append sql =>
      let ((w, file), lsn) := s.writer.append s.file sql
      ⟨w, file, s.returned ++ [lsn], s.kept ++ [⟨lsn, sql⟩]⟩
  | .truncate =>
      let (w, file) := s.writer.truncate
      ⟨w, file, s.returned, []⟩

def run (s : WalTrace) (calls : List WalCall) : WalTrace := calls.foldl step s

end WalTrace

/-- The texts as records with consecutive numbers. -/
def numbered (lsn : UInt64) : List Bytes → List WALRecord
  | [] => []
  | sql :: sqls => ⟨lsn, sql⟩ :: numbered (lsn + 1) sqls

/-- The number after the last record's. -/
def nextAfter (recs : List WALRecord) : UInt64 :=
  match recs.getLast? with
  | some r => r.lsn + 1
  | none => 1

/-- The bytes `t` before the records `recs` go unnoticed: the whole starts with
the records' bytes all the same, and no record follows them. -/
def Echoes (t : Bytes) (recs : List WALRecord) : Prop :=
  ∃ junk, t ++ recs.flatMap WALRecord.encode = recs.flatMap WALRecord.encode ++ junk ∧
    ∀ r : WALRecord, r.sql.length ≤ WALRecord.maxPayload → ¬ r.encode <+: junk

/-- The `n` bytes from `pos` on are all in the sequence number, or all in the
text, of a record that starts at `start`. -/
def InField (start : Nat) (r : WALRecord) (pos n : Nat) : Prop :=
  start + 8 ≤ pos ∧ pos + n ≤ start + 16 ∨
    start + 20 ≤ pos ∧ pos + n ≤ start + 20 + r.sql.length

end FlexQL.Spec
