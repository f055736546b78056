import FlexQL.Lib.Crc
import Mathlib.Logic.Function.Iterate
import Mathlib.Data.Nat.Bitwise

/-!
# The shift register of a checksum

The definition of a reflected checksum: the message goes in bit by bit, the
least significant bit of a byte first. A bit meets the one that falls out of
the register, and if they differ the polynomial is taken in.

A table does a byte in one go. That is right because a shift is linear over
exclusive or: the eight bits may as well all go in before the first shift, and
then the low byte of the register, which the table is for, and the rest of it,
which only moves down, can be shifted apart from each other.
-/

namespace Lib

namespace Crc

variable {poly : UInt32}

/-- One place down; a one that falls out brings the polynomial in. -/
def shift (poly s : UInt32) : UInt32 := if s &&& 1 = 1 then (s >>> 1) ^^^ poly else s >>> 1

/-- A bit of the message, which is set against the one that falls out. -/
def feed (poly s : UInt32) (bit : Bool) : UInt32 :=
  if decide (s &&& 1 = 1) ^^ bit then (s >>> 1) ^^^ poly else s >>> 1

/-- The bits of a byte, the least significant one first. -/
def bits (b : UInt8) : List Bool := (List.range 8).map b.toNat.testBit

/-- A message fed to the register bit by bit. -/
def feedAll (poly s : UInt32) (data : Bytes) : UInt32 := (data.flatMap bits).foldl (feed poly) s

/-- The number with these bits. -/
def packed : List Bool → Nat
  | [] => 0
  | b :: bs => b.toNat + 2 * packed bs

theorem packed_bits : ∀ b : UInt8, packed (bits b) = b.toNat :=
  Bytes.forall_byte (by decide +kernel)

theorem packed_lt (bs : List Bool) : packed bs < 2 ^ bs.length := by
  induction bs with
  | nil => exact Nat.one_pos
  | cons b bs ih =>
      have hb := Bool.toNat_lt b
      rw [packed, List.length_cons, Nat.pow_succ]
      omega

theorem toNat_word {n : Nat} (h : n < 2 ^ 32) : (UInt32.ofNat n).toNat = n :=
  UInt32.toNat_ofNat_of_lt' h

theorem add_two_mul (b : Bool) (n : Nat) : b.toNat + 2 * n = b.toNat ^^^ 2 * n := by
  have h := Nat.xor_bit b 0 false n
  rw [Nat.zero_xor] at h
  simp only [Nat.bit_val, Bool.bne_false, Bool.toNat_false, Nat.mul_zero, Nat.zero_add,
    Nat.add_zero] at h
  omega

theorem div_mul_xor_mod (n k : Nat) : n = n / 2 ^ k * 2 ^ k ^^^ n % 2 ^ k := by
  apply Nat.eq_of_testBit_eq
  intro i
  rw [Nat.testBit_xor, ← Nat.shiftLeft_eq, Nat.testBit_shiftLeft, Nat.testBit_div_two_pow,
    Nat.testBit_mod_two_pow]
  by_cases hi : k ≤ i
  · simp [hi, Nat.not_lt.mpr hi]
  · simp [hi, Nat.not_le.mp hi]

/-! ## One shift -/

theorem low_eq_one_iff (s : UInt32) : s &&& 1 = 1 ↔ s.toNat % 2 = 1 := by
  rw [← UInt32.toNat_inj, UInt32.toNat_and]
  exact Nat.and_one_is_mod _ ▸ Iff.rfl

theorem toNat_half (s : UInt32) : (s >>> 1).toNat = s.toNat / 2 := by
  rw [UInt32.toNat_shiftRight]
  exact Nat.shiftRight_one _

/-- Nothing falls out of an even register. -/
theorem toNat_shift {s : UInt32} (h : s.toNat % 2 = 0) : (shift poly s).toNat = s.toNat / 2 := by
  rw [shift, if_neg (by rw [low_eq_one_iff]; omega), toNat_half]

theorem shift_xor (s t : UInt32) : shift poly (s ^^^ t) = shift poly s ^^^ shift poly t := by
  have hhalf : (s ^^^ t) >>> 1 = (s >>> 1) ^^^ (t >>> 1) := by
    rw [← UInt32.toNat_inj]
    simp only [UInt32.toNat_xor, UInt32.toNat_shiftRight, Nat.shiftRight_xor_distrib]
  have hlow : (s ^^^ t) &&& 1 = 1 ↔ ¬ (s &&& 1 = 1 ↔ t &&& 1 = 1) := by
    simp only [low_eq_one_iff, UInt32.toNat_xor, Nat.xor_mod_two_eq_one]
  rw [shift, shift, shift, hhalf]
  by_cases hs : s &&& 1 = 1 <;> by_cases ht : t &&& 1 = 1
  · rw [if_neg (by rw [hlow]; simp [hs, ht]), if_pos hs, if_pos ht]
    rw [UInt32.xor_assoc, UInt32.xor_comm poly, UInt32.xor_assoc, UInt32.xor_self,
      UInt32.xor_zero]
  · rw [if_pos (by rw [hlow]; simp [hs, ht]), if_pos hs, if_neg ht]
    rw [UInt32.xor_assoc, UInt32.xor_comm _ poly, ← UInt32.xor_assoc]
  · rw [if_pos (by rw [hlow]; simp [hs, ht]), if_neg hs, if_pos ht, UInt32.xor_assoc]
  · rw [if_neg (by rw [hlow]; simp [hs, ht]), if_neg hs, if_neg ht]

theorem iterate_shift_xor (n : Nat) (s t : UInt32) :
    (shift poly)^[n] (s ^^^ t) = (shift poly)^[n] s ^^^ (shift poly)^[n] t := by
  induction n generalizing s t with
  | zero => rfl
  | succ n ih => simp only [Function.iterate_succ_apply, shift_xor, ih]

/-- A register whose low places are all empty only moves down. -/
theorem iterate_shift_up {n : Nat} {s t : UInt32} (h : s.toNat = t.toNat * 2 ^ n) :
    (shift poly)^[n] s = t := by
  induction n generalizing s with
  | zero =>
      rw [Nat.pow_zero, Nat.mul_one] at h
      exact UInt32.toNat_inj.mp h
  | succ n ih =>
      rw [Nat.pow_succ, ← Nat.mul_assoc] at h
      rw [Function.iterate_succ_apply]
      apply ih
      rw [toNat_shift (by omega), h]
      omega

/-! ## Bits and bytes -/

/-- A bit may go in before the shift. -/
theorem feed_eq (s : UInt32) (bit : Bool) :
    feed poly s bit = shift poly (s ^^^ UInt32.ofNat bit.toNat) := by
  rw [shift_xor, feed]
  cases bit with
  | false => simp [shift]
  | true =>
      have hone : shift poly 1 = poly := by
        rw [shift, if_pos (by decide)]
        exact UInt32.zero_xor
      rw [show UInt32.ofNat true.toNat = 1 from rfl, hone, Bool.xor_true, shift]
      by_cases hs : s &&& 1 = 1
      · rw [if_neg (by simp [hs]), if_pos hs, UInt32.xor_assoc, UInt32.xor_self, UInt32.xor_zero]
      · rw [if_pos (by simp [hs]), if_neg hs]

/-- So may all the bits that come, as many as the register has room for. -/
theorem foldl_feed {bs : List Bool} (h : bs.length ≤ 32) (s : UInt32) :
    bs.foldl (feed poly) s = (shift poly)^[bs.length] (s ^^^ UInt32.ofNat (packed bs)) := by
  induction bs generalizing s with
  | nil => exact UInt32.xor_zero.symm
  | cons b bs ih =>
      rw [List.length_cons] at h
      have hlt := packed_lt bs
      have hle : 2 ^ bs.length ≤ 2 ^ 31 := Nat.pow_le_pow_right (by decide) (by omega)
      have hb := Bool.toNat_lt b
      have hsplit : UInt32.ofNat (packed (b :: bs)) =
          UInt32.ofNat b.toNat ^^^ UInt32.ofNat (2 * packed bs) := by
        apply UInt32.toNat_inj.mp
        rw [UInt32.toNat_xor, toNat_word (by rw [packed]; omega), toNat_word (by omega),
          toNat_word (by omega), packed]
        exact add_two_mul b _
      have hdown : shift poly (UInt32.ofNat (2 * packed bs)) = UInt32.ofNat (packed bs) := by
        have hword := toNat_word (show 2 * packed bs < 2 ^ 32 by omega)
        apply UInt32.toNat_inj.mp
        rw [toNat_shift (by omega), hword, toNat_word (by omega)]
        omega
      rw [List.foldl_cons, ih (by omega), List.length_cons, Function.iterate_succ_apply, hsplit,
        ← UInt32.xor_assoc, shift_xor (s ^^^ _), hdown, feed_eq]

/-- The entry of the table for a byte: eight shifts. -/
def entry (poly : UInt32) (i : UInt8) : UInt32 := (shift poly)^[8] i.toUInt32

/-- Eight shifts: the table has what becomes of the low byte. -/
theorem iterate_shift_eight (s : UInt32) :
    (shift poly)^[8] s = (s >>> 8) ^^^ entry poly s.toUInt8 := by
  have hhigh : (s >>> 8).toNat = s.toNat / 2 ^ 8 := by
    rw [UInt32.toNat_shiftRight]
    exact Nat.shiftRight_eq_div_pow _ _
  have hup : (UInt32.ofNat (s.toNat / 2 ^ 8 * 2 ^ 8)).toNat = (s >>> 8).toNat * 2 ^ 8 := by
    have hs := s.toNat_lt
    rw [toNat_word (by omega), hhigh]
  have hsplit : s = UInt32.ofNat (s.toNat / 2 ^ 8 * 2 ^ 8) ^^^ s.toUInt8.toUInt32 := by
    apply UInt32.toNat_inj.mp
    rw [UInt32.toNat_xor, hup, hhigh, UInt8.toNat_toUInt32, UInt32.toNat_toUInt8]
    exact div_mul_xor_mod _ _
  conv_lhs => rw [hsplit]
  rw [iterate_shift_xor, iterate_shift_up hup, entry]

/-- A byte fed bit by bit is a byte taken from the table. -/
theorem foldl_bits (s : UInt32) (b : UInt8) :
    (bits b).foldl (feed poly) s = step (entry poly) s b := by
  have hbyte : UInt32.ofNat (packed (bits b)) = b.toUInt32 := by
    rw [packed_bits]
    exact UInt32.toNat_inj.mp (toNat_word (Nat.lt_trans b.toNat_lt (by decide)))
  have hgone : (s ^^^ b.toUInt32) >>> 8 = s >>> 8 := by
    apply UInt32.toNat_inj.mp
    have hb : b.toUInt32.toNat >>> 8 = 0 := Nat.shiftRight_eq_zero _ _ b.toNat_lt
    rw [UInt32.toNat_shiftRight, UInt32.toNat_shiftRight, UInt32.toNat_xor,
      Nat.shiftRight_xor_distrib]
    exact hb ▸ Nat.xor_zero _
  have hlen : (bits b).length = 8 := rfl
  rw [foldl_feed (by omega), hbyte, hlen, iterate_shift_eight, hgone]
  rfl

/-- A message fed bit by bit, and byte by byte through the table. -/
theorem feedAll_eq (s : UInt32) (data : Bytes) :
    feedAll poly s data = run (entry poly) s data := by
  induction data generalizing s with
  | nil => rfl
  | cons b data ih =>
      rw [feedAll, List.flatMap_cons, List.foldl_append, foldl_bits]
      exact ih _

end Crc

end Lib
