import FlexQL.Lib.Bytes

/-!
# Binary streams

A reader consumes bytes from the front of a stream or fails. `Reads r w a`
says that `r` reads exactly the bytes `w` and returns `a`, whatever follows
them: that is what it means for `w` to encode `a`. `Refuses r w` says that `r`
fails on a stream that ends before `w` does. The rules build such statements
for a format from those for its fields.

An output stream may be bounded: it takes so many bytes and then drops what
comes, without a word to a writer that does not ask.
-/

namespace Lib

/-- Consume a value from the front of a stream. -/
abbrev Reader (α : Type) := Bytes → Option (α × Bytes)

namespace Reader

variable {α β : Type}

/-- Exactly `n` raw bytes. -/
def bytes (n : Nat) : Reader Bytes := fun s =>
  if n ≤ s.length then some (s.take n, s.drop n) else none

/-- An unsigned little-endian integer of `w` bytes. -/
def uint (w : Nat) : Reader Nat := fun s =>
  (bytes w s).map fun p => (Bytes.leNat p.1, p.2)

/-- One reader after another. -/
def andThen (r : Reader α) (f : α → Reader β) : Reader β := fun s =>
  (r s).bind fun p => f p.1 p.2

/-- `w` encodes `a` for the reader `r`. -/
def Reads (r : Reader α) (w : Bytes) (a : α) : Prop :=
  ∀ rest, r (w ++ rest) = some (a, rest)

theorem reads_bytes (w : Bytes) : Reads (bytes w.length) w w := by
  intro rest
  simp [bytes]

theorem bytes_append {n : Nat} {w : Bytes} (rest : Bytes) (h : w.length = n) :
    bytes n (w ++ rest) = some (w, rest) := by
  subst h
  exact reads_bytes w rest

theorem bytes_short {n : Nat} {s : Bytes} (h : s.length < n) : bytes n s = none :=
  if_neg (by omega)

theorem bytes_length {n : Nat} {s w rest : Bytes} (h : bytes n s = some (w, rest)) :
    rest.length + n = s.length := by
  rw [bytes] at h
  split at h
  · next hn =>
      obtain ⟨_, rfl⟩ := Prod.mk.inj (Option.some.inj h)
      rw [List.length_drop]
      omega
  · exact absurd h (by simp)

theorem uint_length {n k : Nat} {s rest : Bytes} (h : uint n s = some (k, rest)) :
    rest.length + n = s.length := by
  obtain ⟨p, hp, h⟩ := Option.map_eq_some_iff.mp h
  obtain ⟨_, rfl⟩ := Prod.mk.inj h
  exact bytes_length hp

/-- What a reader of bytes has read stands at the front of the stream. -/
theorem bytes_split {n : Nat} {s w rest : Bytes} (h : bytes n s = some (w, rest)) :
    s = w ++ rest ∧ w.length = n := by
  rw [bytes] at h
  split at h
  · next hn =>
      obtain ⟨rfl, rfl⟩ := Prod.mk.inj (Option.some.inj h)
      exact ⟨(List.take_append_drop n s).symm, by rw [List.length_take]; omega⟩
  · exact absurd h (by simp)

theorem uint_split {n k : Nat} {s rest : Bytes} (h : uint n s = some (k, rest)) :
    s = Bytes.le k n ++ rest ∧ k < 256 ^ n := by
  obtain ⟨⟨w, _⟩, hp, h⟩ := Option.map_eq_some_iff.mp h
  obtain ⟨rfl, rfl⟩ := Prod.mk.inj h
  obtain ⟨rfl, rfl⟩ := bytes_split hp
  exact ⟨by rw [Bytes.le_leNat], Bytes.leNat_lt w⟩

theorem reads_uint {n w : Nat} (h : n < 256 ^ w) : Reads (uint w) (Bytes.le n w) n := by
  intro rest
  rw [uint, bytes_append rest (Bytes.le_length n w)]
  simp [Bytes.leNat_le_of_lt h]

theorem Reads.andThen {r : Reader α} {f : α → Reader β} {w v : Bytes} {a : α}
    {b : β} (hr : Reads r w a) (hf : Reads (f a) v b) :
    Reads (r.andThen f) (w ++ v) b := by
  intro rest
  rw [Reader.andThen, List.append_assoc, hr]
  exact hf rest

/-! ## Streams that end too early -/

/-- The stream ends within `w`. -/
def Cut (p w : Bytes) : Prop := p <+: w ∧ p ≠ w

/-- No stream that ends within `w` is read. -/
def Refuses (r : Reader α) (w : Bytes) : Prop := ∀ p, Cut p w → r p = none

variable {p w v : Bytes}

theorem not_cut_nil : ¬ Cut p [] := fun h => h.2 (List.prefix_nil.mp h.1)

theorem Cut.length_lt (h : Cut p w) : p.length < w.length :=
  Nat.lt_of_le_of_ne h.1.length_le fun heq => h.2 (h.1.eq_of_length heq)

/-- The end is within the first part or behind it. -/
theorem Cut.append (h : Cut p (w ++ v)) : Cut p w ∨ ∃ q, p = w ++ q ∧ Cut q v := by
  rcases List.prefix_or_prefix_of_prefix h.1 (List.prefix_append w v) with hle | ⟨q, rfl⟩
  · by_cases heq : p = w
    · refine .inr ⟨[], by rw [heq, List.append_nil], List.nil_prefix, fun hv => ?_⟩
      exact h.2 (by rw [heq, ← hv, List.append_nil])
    · exact .inl ⟨hle, heq⟩
  · exact .inr ⟨q, rfl, (List.prefix_append_right_inj w).mp h.1, fun hq => h.2 (by rw [hq])⟩

theorem Cut.append_left (h : Cut p v) (w : Bytes) : Cut (w ++ p) (w ++ v) :=
  ⟨(List.prefix_append_right_inj w).mpr h.1, fun heq => h.2 (List.append_cancel_left heq)⟩

/-- One of the two continues the other. -/
def Meets (s w : Bytes) : Prop := s <+: w ∨ w <+: s

theorem Cut.meets (h : Cut p w) : Meets p w := .inl h.1

theorem meets_append (w rest : Bytes) : Meets (w ++ rest) w := .inr (List.prefix_append w rest)

theorem Meets.cases {s : Bytes} (h : Meets s w) : Cut s w ∨ ∃ rest, s = w ++ rest := by
  rcases h with hle | ⟨rest, rfl⟩
  · by_cases heq : s = w
    · exact .inr ⟨[], by rw [heq, List.append_nil]⟩
    · exact .inl ⟨hle, heq⟩
  · exact .inr ⟨rest, rfl⟩

theorem Meets.append {s : Bytes} (h : Meets s (w ++ v)) :
    Cut s w ∨ ∃ q, s = w ++ q ∧ Meets q v := by
  rcases h.cases with hcut | ⟨rest, rfl⟩
  · rcases hcut.append with hw | ⟨q, rfl, hq⟩
    · exact .inl hw
    · exact .inr ⟨q, rfl, hq.meets⟩
  · exact .inr ⟨v ++ rest, List.append_assoc _ _ _, meets_append v rest⟩

theorem refuses_bytes (w : Bytes) : Refuses (bytes w.length) w := fun _ h => bytes_short h.length_lt

theorem refuses_uint (n w : Nat) : Refuses (uint w) (Bytes.le n w) := by
  intro p h
  rw [uint, bytes_short (by simpa using h.length_lt)]
  rfl

theorem Refuses.andThen {r : Reader α} {f : α → Reader β} {a : α} (hr : Reads r w a)
    (hw : Refuses r w) (hv : Refuses (f a) v) : Refuses (r.andThen f) (w ++ v) := by
  intro p h
  rw [Reader.andThen]
  rcases h.append with hcut | ⟨q, rfl, hcut⟩
  · rw [hw p hcut]
    rfl
  · rw [hr]
    exact hv q hcut

end Reader

/-! ## Writing -/

/-- An output stream with room for so many bytes. -/
structure OutStream where
  room : Nat
  bytes : Bytes
  /-- A write did not fit. -/
  bad : Bool
  deriving DecidableEq, Repr

namespace OutStream

/-- A stream to which nothing has been written. -/
def opened (room : Nat) : OutStream := ⟨room, [], false⟩

/-- As many of the bytes as fit; on a bad stream nothing is written. -/
def write (f : OutStream) (w : Bytes) : OutStream :=
  if f.bad then f
  else { f with bytes := (f.bytes ++ w).take f.room,
                bad := decide (f.room < (f.bytes ++ w).length) }

/-- The stream after `w` has been written to it, in however many writes. -/
def after (room : Nat) (w : Bytes) : OutStream :=
  ⟨room, w.take room, decide (room < w.length)⟩

theorem opened_eq (room : Nat) : opened room = after room [] := by simp [opened, after]

theorem write_after (room : Nat) (w v : Bytes) :
    (after room w).write v = after room (w ++ v) := by
  rw [write]
  split
  · next hbad =>
      have hlt : room < w.length := of_decide_eq_true hbad
      rw [after, after, List.take_append_of_le_length (Nat.le_of_lt hlt)]
      simp only [List.length_append, mk.injEq, decide_eq_decide, true_and]
      omega
  · next hgood =>
      have hle : w.length ≤ room := Nat.le_of_not_lt fun hlt => hgood (decide_eq_true hlt)
      simp only [after, List.take_of_length_le hle]

end OutStream

end Lib
