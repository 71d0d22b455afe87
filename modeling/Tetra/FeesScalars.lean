import Tetra.FeesLaws
import Tetra.CreateTransaction

/-!
`Fees` and a plain amount or scalar: four binary operators, and four compound assignments
that only look the same.
-/
namespace Tetra
open Std

namespace Fees

/-- `f + x` -/
def addInt (f : Fees) (x : Amount) : Fees := ⟨∅,f.fixed+x⟩
/-- `f - x` -/
def subInt (f : Fees) (x : Amount) : Fees := ⟨∅,f.fixed-x⟩
/-- `f * x` -/
def mulInt (f : Fees) (x : Amount) : Fees := ⟨f.locals.map fun _ v => v*x,f.fixed*x⟩
/-- `f / x` -/
def divInt (f : Fees) (x : Amount) : Fees := ⟨f.locals.map fun _ v => v/x,f.fixed/x⟩

/-- `f += x` -/
def addAssignInt (f : Fees) (x : Amount) : Fees := f.assignAmount (f.fixed+x)
/-- `f -= x` -/
def subAssignInt (f : Fees) (x : Amount) : Fees := f.assignAmount (f.fixed-x)
/-- `f *= x`, which is `f = (f * x || true)`: the truth value is assigned, as an integer. -/
def mulAssignInt (f : Fees) (x : Amount) : Fees :=
  f.assignAmount (if decide ((mulInt f x).toAmount ≠ 0) || true then 1 else 0)
/-- `f /= x`, which is `f = f * x`. -/
def divAssignInt (f : Fees) (x : Amount) : Fees := mulInt f x

open Cash

/-! ### The fee of a circuit after each operator -/

@[simp] theorem feePart_addInt (f : Fees) (x : Amount) (c : CashName) : feePart (addInt f x) c = f.fixed+x := by simp [feePart,addInt]
@[simp] theorem feePart_subInt (f : Fees) (x : Amount) (c : CashName) : feePart (subInt f x) c = f.fixed-x := by simp [feePart,subInt]

@[simp] theorem feePart_mulInt (f : Fees) (x : Amount) (c : CashName) : feePart (mulInt f x) c = feePart f c*x := by
  rw [feePart,feePart,mulInt,ExtTreeMap.getElem?_map]
  cases f.locals[c]? <;> rfl

@[simp] theorem feePart_divInt (f : Fees) (x : Amount) (c : CashName) : feePart (divInt f x) c = feePart f c/x := by
  rw [feePart,feePart,divInt,ExtTreeMap.getElem?_map]
  cases f.locals[c]? <;> rfl

/-- An assigned integer is the fee of the circuits without an override. -/
theorem feePart_assignAmount (f : Fees) (y : Amount) (c : CashName) : feePart (f.assignAmount y) c = if c ∈ f.locals then feePart f c else y := by
  split
  next listed =>
    obtain ⟨v,found⟩ := Option.isSome_iff_exists.mp (ExtTreeMap.mem_iff_isSome_getElem?.mp listed)
    rw [feePart,feePart,assignAmount,found]
    rfl
  next unlisted => exact feePart_unlisted (f := f.assignAmount y) unlisted

@[simp] theorem mulAssignInt_eq (f : Fees) (x : Amount) : mulAssignInt f x = f.assignAmount 1 := by
  rw [mulAssignInt,Bool.or_true,if_pos rfl]

/-! ### Where the two forms agree -/

variable (f : Fees) (n : Amount) (c : CashName)

theorem assign_exact_iff (y : Amount) : feePart (f.assignAmount y) c = y ↔ (c ∈ f.locals → feePart f c = y) := by
  rw [feePart_assignAmount]
  split
  next listed => exact ⟨fun same _ => same,fun same => same listed⟩
  next unlisted => exact ⟨fun _ listed => absurd listed unlisted,fun _ => rfl⟩

theorem mulAssign_exact_iff : feePart (mulAssignInt f n) c = feePart (mulInt f n) c ↔
    if c ∈ f.locals then feePart f c*n = feePart f c else feePart f c*n = 1 := by
  rw [mulAssignInt_eq,feePart_assignAmount,feePart_mulInt]
  split
  next => exact eq_comm
  next => exact eq_comm

/-- The product of the two is an `int64`. -/
def Multiplies (v n : Amount) : Prop := -2^63 ≤ v.toInt*n.toInt ∧ v.toInt*n.toInt < 2^63

section
variable {v n : Amount}

theorem Multiplies.toInt_mul (fits : Multiplies v n) : (v*n).toInt = v.toInt*n.toInt := by
  rw [Int64.toInt_mul]
  exact Int.bmod_eq_of_le (by have := fits.1; omega) (by have := fits.2; omega)

theorem Multiplies.eq_self_iff (fits : Multiplies v n) : v*n = v ↔ v = 0 ∨ n = 1 := by
  have zero : (0 : Int64).toInt = 0 := rfl
  have one : (1 : Int64).toInt = 1 := rfl
  rw [← Int64.toInt_inj,fits.toInt_mul,mul_right_eq_self₀,or_comm]
  simp only [← Int64.toInt_inj,zero,one]

theorem Multiplies.eq_one_iff (fits : Multiplies v n) : v*n = 1 ↔ v = 1 ∧ n = 1 ∨ v = -1 ∧ n = -1 := by
  have one : (1 : Int64).toInt = 1 := rfl
  have minusOne : (-1 : Int64).toInt = -1 := rfl
  rw [← Int64.toInt_inj,fits.toInt_mul,one,Int.mul_eq_one_iff_eq_one_or_neg_one]
  simp only [← Int64.toInt_inj,one,minusOne]

/-- A quotient rounds towards zero, so it has the size of the product only where nothing is
    divided. -/
theorem Multiplies.eq_div_iff (fits : Multiplies v n) (divides : n ≠ 0) : v*n = v/n ↔ v = 0 ∨ n = 1 ∨ n = -1 := by
  have zero : (0 : Int64).toInt = 0 := rfl
  have one : (1 : Int64).toInt = 1 := rfl
  have minusOne : (-1 : Int64).toInt = -1 := rfl
  constructor
  · intro same
    by_contra other
    push Not at other
    obtain ⟨filled,notOne,notMinusOne⟩ := other
    rw [Ne,← Int64.toInt_inj] at divides filled notOne notMinusOne
    rw [zero] at divides filled
    rw [one] at notOne
    rw [minusOne] at notMinusOne
    have values := congrArg Int64.toInt same
    rw [fits.toInt_mul,Int64.toInt_div_of_ne_right v n fun minus => notMinusOne (by rw [minus,minusOne])] at values
    have sizes := congrArg Int.natAbs values
    rw [Int.natAbs_mul,Int.natAbs_tdiv] at sizes
    have wide : 2 ≤ n.toInt.natAbs := by omega
    have less : v.toInt.natAbs/n.toInt.natAbs < v.toInt.natAbs := Nat.div_lt_self (by omega) wide
    have more : v.toInt.natAbs ≤ v.toInt.natAbs*n.toInt.natAbs := Nat.le_mul_of_pos_right _ (by omega)
    exact absurd sizes (ne_of_gt (less.trans_le more))
  · rintro (rfl | rfl | rfl)
    · rw [Int64.zero_mul,Int64.zero_div]
    · rw [Int64.mul_one,Int64.div_one]
    · have notMin : v ≠ Int64.minValue := by
        rintro rfl
        exact absurd fits.2 (by decide)
      rw [← Int64.toInt_inj,fits.toInt_mul,Int64.toInt_div_of_ne_left v _ notMin,minusOne,Int.tdiv_neg,Int.tdiv_one]
      omega
end

/-- Neither form loses or keeps what the other does not, exactly in these cases; for products
    that are no `int64` the wrapped values decide. -/
theorem compound_exact_iff :
    (feePart (addAssignInt f n) c = feePart (addInt f n) c ↔ (c ∈ f.locals → feePart f c = f.fixed+n)) ∧
    (feePart (subAssignInt f n) c = feePart (subInt f n) c ↔ (c ∈ f.locals → feePart f c = f.fixed-n)) ∧
    (feePart (mulAssignInt f n) c = feePart (mulInt f n) c ↔
      if c ∈ f.locals then feePart f c*n = feePart f c else feePart f c*n = 1) ∧
    (n ≠ 0 → (feePart (divAssignInt f n) c = feePart (divInt f n) c ↔ feePart f c*n = feePart f c/n)) ∧
    (Multiplies (feePart f c) n →
      (feePart (mulAssignInt f n) c = feePart (mulInt f n) c ↔
        if c ∈ f.locals then feePart f c = 0 ∨ n = 1 else feePart f c = 1 ∧ n = 1 ∨ feePart f c = -1 ∧ n = -1) ∧
      (n ≠ 0 → (feePart (divAssignInt f n) c = feePart (divInt f n) c ↔ feePart f c = 0 ∨ n = 1 ∨ n = -1))) := by
  have quotient : feePart (divAssignInt f n) c = feePart (divInt f n) c ↔ feePart f c*n = feePart f c/n := by
    rw [divAssignInt,feePart_mulInt,feePart_divInt]
  refine ⟨?_,?_,mulAssign_exact_iff f n c,fun _ => quotient,fun fits => ⟨?_,fun divides => ?_⟩⟩
  · rw [feePart_addInt]
    exact assign_exact_iff f c _
  · rw [feePart_subInt]
    exact assign_exact_iff f c _
  · rw [mulAssign_exact_iff,fits.eq_self_iff,fits.eq_one_iff]
  · rw [quotient,fits.eq_div_iff divides]

/-- A fee of 5 in one circuit and 1 in the others. -/
private def overriding : Fees := ⟨(∅ : CashStruct).insert [65] 5,1⟩

theorem compound_exact_double : feePart (divAssignInt overriding 2) [66] = 2 ∧
    ¬(feePart (divAssignInt overriding 2) [66] = feePart (divInt overriding 2) [66]) := by
  have fits : Multiplies (feePart overriding [66]) 2 := ⟨by decide +kernel,by decide +kernel⟩
  have quotient := ((compound_exact_iff overriding 2 [66]).2.2.2.2 fits).2 (by decide)
  refine ⟨by decide +kernel,fun same => ?_⟩
  have exact := quotient.mp same
  revert exact
  decide +kernel

/-- With 2 the four compound forms leave 5, 5, 5 and 10 where the binary ones give 3, -1, 10
    and 2. -/
theorem compound_differs :
    feePart (addAssignInt overriding 2) [65] = 5 ∧ feePart (addInt overriding 2) [65] = 3 ∧
    feePart (subAssignInt overriding 2) [65] = 5 ∧ feePart (subInt overriding 2) [65] = -1 ∧
    feePart (mulAssignInt overriding 2) [65] = 5 ∧ feePart (mulInt overriding 2) [65] = 10 ∧
    feePart (divAssignInt overriding 2) [65] = 10 ∧ feePart (divInt overriding 2) [65] = 2 := by
  decide +kernel

end Fees
end Tetra
