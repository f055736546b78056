import FlexQL.Lib.WeakOrder
import Mathlib.Algebra.Ring.Int.Defs
import Mathlib.Algebra.Ring.Nat

/-!
# Comparing doubles by their bit patterns

A double is kept as its 64 bits, and comparison is the one IEEE 754 defines:
nothing compares with a NaN, the two zeros are tied, and every other pair is
ordered by sign and magnitude. `rank` turns the sign-and-magnitude pattern
into an integer, so that on the patterns that are not NaNs the comparisons
are those of the integers.
-/

namespace Lib.Double

/-- The pattern without its sign bit. -/
def magnitude (b : UInt64) : Nat := b.toNat % 2 ^ 63

def isNaN (b : UInt64) : Bool := 0x7FF0000000000000 < magnitude b

/-- The position of a pattern in the order of the doubles. -/
def rank (b : UInt64) : Int :=
  if b.toNat < 2 ^ 63 then (magnitude b : Int) else -(magnitude b : Int)

def lt (a b : UInt64) : Bool := !isNaN a && !isNaN b && rank a < rank b

def eq (a b : UInt64) : Bool := !isNaN a && !isNaN b && rank a = rank b

/-- Away from the NaNs the comparisons order the doubles. -/
theorem weakOrder : WeakOrderOn (fun b => isNaN b = false) lt eq where
  asymm := by
    intro a b ha hb h
    simp only [lt, ha, hb, Bool.not_false, Bool.true_and, decide_eq_true_eq,
      decide_eq_false_iff_not] at h ⊢
    omega
  between := by
    intro a b c ha hb hc h
    simp only [lt, ha, hb, hc, Bool.not_false, Bool.true_and, decide_eq_true_eq] at h ⊢
    omega
  eq_iff := by
    intro a b ha hb
    simp only [lt, eq, ha, hb, Bool.not_false, Bool.true_and, decide_eq_true_eq,
      decide_eq_false_iff_not]
    omega

end Lib.Double
