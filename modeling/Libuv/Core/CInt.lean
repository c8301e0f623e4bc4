import Mathlib.Tactic

/-!
# Counts in an `int`

What becomes of a count that is converted to an `int` of 32 bits: it is cut off, and the upper half of what is left is negative.

* `ofNat_of_lt`: counts below 2^31 stay what they are.
-/
namespace Libuv.CInt

def ofNat (n : ℕ) : ℤ := Int.bmod n (2 ^ 32)

variable {n : ℕ}

theorem ofNat_of_lt (h : n < 2 ^ 31) : ofNat n = n := by
  refine Int.bmod_eq_of_le ?_ ?_
  · omega
  · omega

theorem ofNat_le (n : ℕ) : ofNat n ≤ n := by
  by_cases h : n < 2 ^ 31
  · exact (ofNat_of_lt h).le
  · have hlt : ofNat n < (2 ^ 32 + 1) / 2 := Int.bmod_lt (by decide)
    omega

end Libuv.CInt
