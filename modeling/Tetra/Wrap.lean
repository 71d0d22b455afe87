import Mathlib

/-!
Wrapping 64-bit sums. A fold of additions that never leaves the range agrees
with the sum of the integers, so a bound on the count and on every summand is
enough to read a wrapped total as the exact one.
-/
namespace Tetra.Wrap

instance int64Group : AddCommGroup Int64 where
  add_assoc := Int64.add_assoc
  zero_add := Int64.zero_add
  add_zero := Int64.add_zero
  add_comm := Int64.add_comm
  neg_add_cancel := Int64.add_left_neg
  sub := (· - ·)
  sub_eq_add_neg := Int64.sub_eq_add_neg
  nsmul := nsmulRec
  zsmul := zsmulRec

/-- Wrapping to 64 bits respects sums. -/
def ofIntHom : Int →+ Int64 where
  toFun := Int64.ofInt
  map_zero' := rfl
  map_add' := Int64.ofInt_add

/-- Narrowing a count never makes it larger. -/
theorem bmod_le_self (n m : Nat) : Int.bmod n m ≤ n := by
  have low : (n : Int) % m ≤ n := Int.ofNat_le.mpr (Nat.mod_le n m)
  rw [Int.bmod_def]
  split
  · exact low
  · omega

/-- A size as an `int`. -/
@[irreducible] def sizeAsInt (size : Nat) : Int := Int.bmod size (2^32)

theorem sizeAsInt_eq {size : Nat} (short : size < 2^31) : sizeAsInt size = size := by
  unfold sizeAsInt
  exact Int.bmod_eq_of_le (by omega) (by omega)

theorem sizeAsInt_negative : sizeAsInt (2^31) < 0 := by
  unfold sizeAsInt
  rw [Int.bmod_def]
  norm_num

theorem toInt_add_of_fits {a b : Int64} (low : -2^63 ≤ a.toInt+b.toInt) (high : a.toInt+b.toInt < 2^63) :
    (a+b).toInt = a.toInt+b.toInt := by
  rw [Int64.toInt_add]
  exact Int.bmod_eq_of_le (by omega) (by omega)

theorem toInt_sub_of_fits {a b : Int64} (low : -2^63 ≤ a.toInt-b.toInt) (high : a.toInt-b.toInt < 2^63) :
    (a-b).toInt = a.toInt-b.toInt := by
  rw [Int64.toInt_sub]
  exact Int.bmod_eq_of_le (by omega) (by omega)

/-- Summing non-negative values whose exact sum fits does not wrap. -/
theorem toInt_foldl_add_of_sum (xs : List Int64) (each : ∀ x ∈ xs, 0 ≤ x.toInt) (acc : Int64) (start : 0 ≤ acc.toInt)
    (fits : acc.toInt+(xs.map Int64.toInt).sum < 2^63) :
    (xs.foldl (· + ·) acc).toInt = acc.toInt+(xs.map Int64.toInt).sum := by
  induction xs generalizing acc with
  | nil => simp
  | cons x rest ih =>
    have nonneg := each x (List.mem_cons_self ..)
    have restNonneg : 0 ≤ (rest.map Int64.toInt).sum := by
      refine List.sum_nonneg fun y member => ?_
      obtain ⟨z,later,rfl⟩ := List.mem_map.mp member
      exact each z (List.mem_cons_of_mem _ later)
    simp only [List.map_cons,List.sum_cons] at fits ⊢
    have step : (acc+x).toInt = acc.toInt+x.toInt := toInt_add_of_fits (by omega) (by omega)
    rw [List.foldl_cons,ih (fun y later => each y (List.mem_cons_of_mem _ later)) _ (by omega) (by omega),step]
    omega

/-- The exact sum of bounded values is bounded by count times bound. -/
theorem sum_toInt_bounds (xs : List Int64) (bound : Int) (each : ∀ x ∈ xs, 0 ≤ x.toInt ∧ x.toInt ≤ bound) :
    0 ≤ (xs.map Int64.toInt).sum ∧ (xs.map Int64.toInt).sum ≤ xs.length*bound := by
  induction xs with
  | nil => simp
  | cons x rest ih =>
    obtain ⟨nonneg,le⟩ := each x (List.mem_cons_self ..)
    obtain ⟨low,high⟩ := ih (fun y later => each y (List.mem_cons_of_mem _ later))
    have split : ((x :: rest).length : Int)*bound = rest.length*bound+bound := by
      rw [List.length_cons]; push_cast; ring
    rw [split]
    simp only [List.map_cons,List.sum_cons]
    omega

/-- Summing bounded non-negative values does not wrap while count times bound fits. -/
theorem toInt_foldl_add (xs : List Int64) (bound : Int) (each : ∀ x ∈ xs, 0 ≤ x.toInt ∧ x.toInt ≤ bound)
    (acc : Int64) (start : 0 ≤ acc.toInt) (fits : acc.toInt+xs.length*bound < 2^63) :
    (xs.foldl (· + ·) acc).toInt = acc.toInt+(xs.map Int64.toInt).sum := by
  have high := (sum_toInt_bounds xs bound each).2
  exact toInt_foldl_add_of_sum xs (fun x member => (each x member).1) acc start (by omega)

end Tetra.Wrap
