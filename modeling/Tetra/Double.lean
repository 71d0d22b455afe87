import Mathlib

/-!
Double precision by its values: a rational goes to the nearest number with a 53-bit
significand, ties to the even one. Overflow and subnormal numbers are left out; what
the node computes stays between a hundredth and the 64-bit range, or is zero.
-/
namespace Tetra.Double

/-- The nearest integer, the even one of two. -/
def roundEven (x : ℚ) : ℤ :=
  let k := ⌊x⌋
  if x-k < 1/2 then k
  else if 1/2 < x-k then k+1
  else k+k%2

/-- The unit in the last place of a double of the size of `x`. -/
def unit (x : ℚ) : ℚ := (2 : ℚ)^(Int.log 2 |x|-52)

/-- The nearest double. -/
def round (x : ℚ) : ℚ := if x = 0 then 0 else roundEven (x/unit x)*unit x

/-- The conversion to an integer cuts the fraction off. -/
def truncate (x : ℚ) : ℤ := if 0 ≤ x then ⌊x⌋ else ⌈x⌉

end Tetra.Double
