import FlexQL.Lib.Reader

/-!
# Partial transfers

A call that moves bytes over a connection may move fewer than it is asked to.
Who wants to move exactly so many calls again for the rest, until all are
moved or a call moves none. However the calls split the bytes, as long as each
moves one that can be moved, the loop that writes has written all of them, and
the loop that reads has read as many as it wanted or found the end of the
stream.
-/

namespace Lib.Transfer

/-- What the calls on one end answer: call number `k`, which can move `room`
bytes, moves so many of them. None is a failure or the end. -/
abbrev Calls := (k room : Nat) → Fin (room + 1)

/-- No call fails. -/
def Splits (calls : Calls) : Prop := ∀ k room, 0 < room → 0 < (calls k room).val

/-- One end of a connection: the calls made so far, and the bytes written into
it or left to read. -/
structure End where
  made : Nat
  bytes : Bytes
  deriving DecidableEq, Repr

/-- An end on which no call has been made. -/
def End.new (bytes : Bytes) : End := ⟨0, bytes⟩

variable (calls : Calls)

/-- Write all of the data. -/
def writeAll (e : End) (data : Bytes) : End × Bool :=
  if 0 < data.length then
    let n := (calls e.made data.length).val
    let e : End := ⟨e.made + 1, e.bytes ++ data.take n⟩
    if n = 0 then (e, false) else writeAll e (data.drop n)
  else (e, true)
termination_by data.length
decreasing_by
  rw [List.length_drop]
  omega

/-- Read `wanted` bytes behind those there are. -/
def readAll (e : End) (wanted : Nat) (got : Bytes) : End × Option Bytes :=
  if 0 < wanted then
    let n := (calls e.made (min wanted e.bytes.length)).val
    let rest : End := ⟨e.made + 1, e.bytes.drop n⟩
    if n = 0 then (rest, none) else readAll rest (wanted - n) (got ++ e.bytes.take n)
  else (e, some got)
termination_by wanted
decreasing_by omega

variable {calls} {e : End} {data got : Bytes} {wanted : Nat}

/-- What has been written is the beginning of the data, and all of it if no
call failed. -/
theorem writeAll_spec : ∃ made n, n ≤ data.length ∧
    writeAll calls e data = (⟨made, e.bytes ++ data.take n⟩, decide (n = data.length)) := by
  fun_induction writeAll calls e data with
  | case1 e data hpos n e' hzero =>
      refine ⟨e.made + 1, n, hzero ▸ Nat.zero_le _, ?_⟩
      rw [decide_eq_false (by omega : n ≠ data.length)]
  | case2 e data hpos n e' hn ih =>
      obtain ⟨made, m, hm, hrun⟩ := ih
      have hlt := (calls e.made data.length).isLt
      rw [List.length_drop] at hm hrun
      refine ⟨made, n + m, by omega, ?_⟩
      rw [hrun, List.append_assoc, ← List.take_add]
      exact congrArg _ (decide_eq_decide.mpr (by omega))
  | case3 e data hnil =>
      have hdata : data.length = 0 := by omega
      exact ⟨e.made, 0, Nat.zero_le _, by simp [hdata]⟩

theorem writeAll_splits (h : Splits calls) :
    ∃ made, writeAll calls e data = (⟨made, e.bytes ++ data⟩, true) := by
  fun_induction writeAll calls e data with
  | case1 e data hpos n e' hzero => exact absurd hzero (h _ _ hpos).ne'
  | case2 e data hpos n e' hn ih =>
      obtain ⟨made, hrun⟩ := ih
      refine ⟨made, ?_⟩
      rw [hrun, List.append_assoc, List.take_append_drop]
  | case3 e data hnil =>
      have hdata : data = [] := List.length_eq_zero_iff.mp (by omega)
      exact ⟨e.made, by rw [hdata, List.append_nil]⟩

/-- The bytes that were wanted, if the stream has as many. -/
theorem readAll_splits (h : Splits calls) (hle : wanted ≤ e.bytes.length) :
    ∃ made, readAll calls e wanted got =
      (⟨made, e.bytes.drop wanted⟩, some (got ++ e.bytes.take wanted)) := by
  fun_induction readAll calls e wanted got with
  | case1 e wanted got hpos n rest hzero => exact absurd hzero (h _ _ (by omega)).ne'
  | case2 e wanted got hpos n rest hn ih =>
      have hlt := (calls e.made (min wanted e.bytes.length)).isLt
      obtain ⟨made, hrun⟩ := ih (by rw [List.length_drop]; omega)
      refine ⟨made, ?_⟩
      have hsum : n + (wanted - n) = wanted := by omega
      rw [hrun, List.drop_drop, List.append_assoc, ← List.take_add, hsum]
  | case3 e wanted got hzero =>
      obtain rfl : wanted = 0 := by omega
      exact ⟨e.made, by rw [List.drop_zero, List.take_zero, List.append_nil]⟩

/-- A stream that ends before. -/
theorem readAll_short (h : Splits calls) (hlt : e.bytes.length < wanted) :
    ∃ made, readAll calls e wanted got = (⟨made, []⟩, none) := by
  fun_induction readAll calls e wanted got with
  | case1 e wanted got hpos n rest hzero =>
      -- a call that moves none has found nothing to move
      have hnil : e.bytes.length = 0 := by
        by_contra hne
        exact (h e.made (min wanted e.bytes.length) (by omega)).ne' hzero
      have hrest : e.bytes.drop n = [] := List.drop_eq_nil_of_le (by omega)
      exact ⟨e.made + 1, by rw [← hrest]⟩
  | case2 e wanted got hpos n rest hn ih =>
      have hle := (calls e.made (min wanted e.bytes.length)).isLt
      exact ih (by rw [List.length_drop]; omega)
  | case3 e wanted got hzero => omega

/-- The loop is a reader of so many bytes. -/
theorem readAll_eq (h : Splits calls) (wanted : Nat) (e : End) : ∃ made,
    readAll calls e wanted [] = match Reader.bytes wanted e.bytes with
      | some (w, rest) => (⟨made, rest⟩, some w)
      | none => (⟨made, []⟩, none) := by
  by_cases hle : wanted ≤ e.bytes.length
  · rw [Reader.bytes, if_pos hle]
    exact readAll_splits h hle
  · rw [Reader.bytes, if_neg hle]
    exact readAll_short h (by omega)

end Lib.Transfer
