import FlexQL.Lib.Bytes

/-!
# Table-driven checksums

A register of 32 bits takes a byte at a time: it moves down eight places and
takes in the table's word for its old low byte and the new one. If no two
words of the table have the same top byte, the top byte of the register tells
which word came in last, and the four bytes of it tell the last four. So four
bytes in a row can be read off a register, and a byte can be undone.
-/

namespace Lib

namespace Crc

variable {table : UInt8 → UInt32}

/-- The word of the table a byte selects. -/
def index (s : UInt32) (b : UInt8) : UInt8 := (s ^^^ b.toUInt32).toUInt8

/-- One byte into the register. -/
def step (table : UInt8 → UInt32) (s : UInt32) (b : UInt8) : UInt32 :=
  (s >>> 8) ^^^ table (index s b)

def run (table : UInt8 → UInt32) (s : UInt32) (data : Bytes) : UInt32 :=
  data.foldl (step table) s

/-- The words of the table are told apart by their top bytes. -/
def TopBytes (table : UInt8 → UInt32) : Prop :=
  ∀ i j, (table i).toNat >>> 24 = (table j).toNat >>> 24 → i = j

theorem run_append (s : UInt32) (a b : Bytes) :
    run table s (a ++ b) = run table (run table s a) b :=
  List.foldl_append

theorem index_eq (s : UInt32) (b : UInt8) : index s b = s.toUInt8 ^^^ b := by
  simp [index]

theorem toNat_step (s : UInt32) (b : UInt8) :
    (step table s b).toNat = (s.toNat >>> 8) ^^^ (table (index s b)).toNat := by
  rw [step, UInt32.toNat_xor, UInt32.toNat_shiftRight]
  rfl

/-- What is left of a register above `8 * j` bits still tells the word that
came in, as long as its top byte is left. -/
theorem step_shift {s s' : UInt32} {b b' : UInt8} {j : Nat} (ht : TopBytes table) (hj : j ≤ 3)
    (h : (step table s b).toNat >>> (8 * j) = (step table s' b').toNat >>> (8 * j)) :
    index s b = index s' b' ∧ s.toNat >>> (8 * (j + 1)) = s'.toNat >>> (8 * (j + 1)) := by
  have hgone : ∀ s : UInt32, s.toNat >>> 32 = 0 := fun s =>
    Nat.shiftRight_eq_zero _ _ s.toNat_lt
  have hparts : ∀ (s : UInt32) (b : UInt8), (step table s b).toNat >>> (8 * j) =
      s.toNat >>> (8 * (j + 1)) ^^^ (table (index s b)).toNat >>> (8 * j) := by
    intro s b
    rw [toNat_step, Nat.shiftRight_xor_distrib, ← Nat.shiftRight_add]
    congr 2
    omega
  rw [hparts, hparts] at h
  have hindex : index s b = index s' b' := by
    have htop := congrArg (· >>> (24 - 8 * j)) h
    simp only [Nat.shiftRight_xor_distrib, ← Nat.shiftRight_add] at htop
    rw [show 8 * (j + 1) + (24 - 8 * j) = 32 by omega, hgone, hgone, Nat.zero_xor, Nat.zero_xor,
      show 8 * j + (24 - 8 * j) = 24 by omega] at htop
    exact ht _ _ htop
  refine ⟨hindex, ?_⟩
  have hcancel := congrArg (· ^^^ (table (index s' b')).toNat >>> (8 * j)) h
  simpa only [hindex, Nat.xor_assoc, Nat.xor_self, Nat.xor_zero] using hcancel

/-- A byte can be undone. -/
theorem step_injective {s s' : UInt32} {b : UInt8} (ht : TopBytes table)
    (h : step table s b = step table s' b) : s = s' := by
  have hshift : (step table s b).toNat >>> (8 * 0) = (step table s' b).toNat >>> (8 * 0) := by
    rw [h]
  obtain ⟨hindex, hhigh⟩ := step_shift ht (by decide) hshift
  rw [index_eq, index_eq, UInt8.xor_left_inj] at hindex
  have hlow := congrArg UInt8.toNat hindex
  rw [UInt32.toNat_toUInt8, UInt32.toNat_toUInt8] at hlow
  rw [Nat.shiftRight_eq_div_pow, Nat.shiftRight_eq_div_pow] at hhigh
  apply UInt32.toNat_inj.mp
  omega

theorem run_injective {s s' : UInt32} {data : Bytes} (ht : TopBytes table)
    (h : run table s data = run table s' data) : s = s' := by
  induction data generalizing s s' with
  | nil => exact h
  | cons b data ih => exact step_injective ht (ih h)

/-- At most four bytes: what was in the register above them is still there to
see. -/
theorem run_shift {s s' : UInt32} {a a' : Bytes} (ht : TopBytes table)
    (hlen : a.length = a'.length) (hfour : a.length ≤ 4) (h : run table s a = run table s' a') :
    s.toNat >>> (8 * a.length) = s'.toNat >>> (8 * a.length) := by
  induction a generalizing s s' a' with
  | nil =>
      obtain rfl := List.length_eq_zero_iff.mp hlen.symm
      rw [show s = s' from h]
  | cons b a ih =>
      cases a' with
      | nil => exact absurd hlen (by simp)
      | cons b' a' =>
          rw [List.length_cons] at hfour ⊢
          have hrest := ih (Nat.succ.inj hlen) (by omega) h
          exact (step_shift ht (by omega) hrest).2

/-- Four bytes in a row leave different registers if they differ. -/
theorem run_four {s : UInt32} {a a' : Bytes} (ht : TopBytes table)
    (hlen : a.length = a'.length) (hfour : a.length ≤ 4) (h : run table s a = run table s a') :
    a = a' := by
  induction a generalizing s a' with
  | nil => exact (List.length_eq_zero_iff.mp hlen.symm).symm
  | cons b a ih =>
      cases a' with
      | nil => exact absurd hlen (by simp)
      | cons b' a' =>
          rw [List.length_cons] at hfour
          have hlen : a.length = a'.length := Nat.succ.inj hlen
          have hrest := run_shift ht hlen (by omega) h
          have hindex := (step_shift ht (by omega) hrest).1
          rw [index_eq, index_eq, UInt8.xor_right_inj] at hindex
          rw [show b = b' from hindex] at h ⊢
          rw [ih hlen (by omega) h]

/-- A change of four bytes in a row, anywhere in the data, shows in the
register. -/
theorem run_burst {s : UInt32} {before a a' after : Bytes} (ht : TopBytes table)
    (hlen : a.length = a'.length) (hfour : a.length ≤ 4)
    (h : run table s (before ++ a ++ after) = run table s (before ++ a' ++ after)) : a = a' := by
  rw [run_append, run_append, run_append, run_append] at h
  exact run_four ht hlen hfour (run_injective ht h)

end Crc

end Lib
