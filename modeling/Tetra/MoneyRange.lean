import Mathlib
import Tetra.Transaction

/-!
What `MoneyRange` looks at. Its two comparisons use the largest and the smallest part of a
value the wrong way round, so that it turns a value down only if all of it is too much.
-/
namespace Tetra
open Std

namespace Cash

/-- Every circuit amount and the circuit-free part are between zero and the limit. -/
def WithinMoney (x : Cash) : Prop :=
  (∀ (c : CashName) v, x.locals[c]? = some v → 0 ≤ v ∧ v ≤ MAX_MONEY) ∧ 0 ≤ x.fixed ∧ x.fixed ≤ MAX_MONEY

theorem MoneyRange_iff (x : Cash) : MoneyRange x = true ↔ x.Min ≤ MAX_MONEY := by
  have above : x.geAmount 0 = true := decide_eq_true (Max_nonneg x)
  rw [MoneyRange,above,Bool.true_and,leAmount,decide_eq_true_iff]

theorem WithinMoney.Min_le {x : Cash} (within : x.WithinMoney) : x.Min ≤ MAX_MONEY := by
  obtain ⟨circuits,_,high⟩ := within
  by_cases empty : x.size = 0
  · have noCircuit : x.locals.toList = [] := by
      rw [← List.length_eq_zero_iff,ExtTreeMap.length_toList]
      exact empty
    rw [Min,noCircuit]
    exact high
  · obtain ⟨c,v,found⟩ := exists_lookup empty
    exact Int64.le_trans (Min_le_of_lookup found) (circuits c v found).2

theorem MoneyRange_exact_iff (x : Cash) : (MoneyRange x = true ↔ x.WithinMoney) ↔ x.WithinMoney ∨ MAX_MONEY < x.Min := by
  rw [MoneyRange_iff]
  constructor
  · intro exact
    by_cases low : x.Min ≤ MAX_MONEY
    · exact .inl (exact.mp low)
    · exact .inr (Int64.not_le.mp low)
  · rintro (within | above)
    · exact ⟨fun _ => within,fun _ => within.Min_le⟩
    · have high : ¬x.Min ≤ MAX_MONEY := Int64.not_le.mpr above
      exact ⟨fun low => absurd low high,fun within => absurd within.Min_le high⟩

end Cash

namespace CTransaction

/-- The running sum of `CheckTransaction` after some outputs. -/
def runningSum (nValueOut : Cash) (outs : List CTxOut) : Cash := outs.foldl (fun sum out => sum.addAssign out.nValue) nValueOut

/-- What `CheckTransaction` turns a transaction down for. Of the running sum it sees only
    whether all of it is above the limit. -/
inductive Refused (tx : CTransaction) : Prop
  | noInput (empty : tx.vin = [])
  | noOutput (empty : tx.vout = [])
  | size (large : MAX_BLOCK_SIZE < tx.GetSerializeSize)
  | negative (out : CTxOut) (member : out ∈ tx.vout) (low : out.nValue.Min < 0)
  | tooHigh (out : CTxOut) (member : out ∈ tx.vout) (high : MAX_MONEY < out.nValue.Max)
  | sum (n : Nat) (counted : n < tx.vout.length) (high : MAX_MONEY < (runningSum {} (tx.vout.take (n+1))).Min)
  | duplicate (again : duplicateInputs [] tx.vin = true)
  | prevouts (wrong : tx.checkPrevouts ≠ .ok ())

theorem checkOutputs_ok_iff (outs : List CTxOut) (nValueOut : Cash) :
    (∃ sum, checkOutputs nValueOut outs = .ok sum) ↔
      (∀ out ∈ outs, ¬out.nValue.Min < 0 ∧ ¬MAX_MONEY < out.nValue.Max) ∧
        ∀ n < outs.length, ¬MAX_MONEY < (runningSum nValueOut (outs.take (n+1))).Min := by
  induction outs generalizing nValueOut with
  | nil => simp [checkOutputs]
  | cons txout rest ih =>
    have sums : (∀ n < (txout :: rest).length, ¬MAX_MONEY < (runningSum nValueOut ((txout :: rest).take (n+1))).Min) ↔
        ¬MAX_MONEY < (nValueOut.addAssign txout.nValue).Min ∧
          ∀ n < rest.length, ¬MAX_MONEY < (runningSum (nValueOut.addAssign txout.nValue) (rest.take (n+1))).Min := by
      constructor
      · intro all
        exact ⟨all 0 (Nat.succ_pos _),fun n low => all (n+1) (Nat.succ_lt_succ low)⟩
      · rintro ⟨first,later⟩ n low
        cases n with
        | zero => exact first
        | succ n => exact later n (Nat.lt_of_succ_lt_succ low)
    rw [sums,List.forall_mem_cons,checkOutputs,Cash.ltAmount,Cash.gtAmount]
    by_cases low : txout.nValue.Min < 0
    · simp [low]
    by_cases high : MAX_MONEY < txout.nValue.Max
    · simp [low,high]
    have range : MoneyRange (nValueOut.addAssign txout.nValue) = false ↔ MAX_MONEY < (nValueOut.addAssign txout.nValue).Min := by
      rw [← Bool.not_eq_true,Cash.MoneyRange_iff,Int64.not_le]
    simp only [low,gt_iff_lt,high,range,decide_false,Bool.false_eq_true,if_false,not_false_eq_true,true_and]
    by_cases above : MAX_MONEY < (nValueOut.addAssign txout.nValue).Min
    · simp [above]
    · rw [if_neg above,ih]
      simp [above]

theorem CheckTransaction_iff (tx : CTransaction) : tx.CheckTransaction = .ok () ↔ ¬tx.Refused := by
  constructor
  · intro checked refused
    obtain ⟨someInput,someOutput,fits,outputs,distinct,prevouts⟩ := CheckTransaction_ok tx checked
    obtain ⟨each,sums⟩ := (checkOutputs_ok_iff tx.vout {}).mp outputs
    cases refused with
    | noInput empty => exact someInput empty
    | noOutput empty => exact someOutput empty
    | size large => omega
    | negative out member low => exact (each out member).1 low
    | tooHigh out member high => exact (each out member).2 high
    | sum n counted high => exact sums n counted high
    | duplicate again => exact Bool.false_ne_true (distinct.symm.trans again)
    | prevouts wrong => exact wrong prevouts
  · intro fair
    have outputs : ∃ sum, checkOutputs {} tx.vout = .ok sum := by
      refine (checkOutputs_ok_iff tx.vout {}).mpr ⟨fun out member => ?_,fun n counted high => fair (.sum n counted high)⟩
      exact ⟨fun low => fair (.negative out member low),fun high => fair (.tooHigh out member high)⟩
    obtain ⟨sum,outputs⟩ := outputs
    have someInput : ¬tx.vin.isEmpty = true := fun empty => fair (.noInput (List.isEmpty_iff.mp empty))
    have someOutput : ¬tx.vout.isEmpty = true := fun empty => fair (.noOutput (List.isEmpty_iff.mp empty))
    rw [CheckTransaction,if_neg someInput,if_neg someOutput,if_neg fun large => fair (.size large),outputs]
    dsimp only
    rw [if_neg fun again => fair (.duplicate again)]
    by_contra wrong
    exact fair (.prevouts wrong)

/-- No circuit of the outputs is negative or adds up to more than there may be. -/
def OutputsInRange (tx : CTransaction) : Prop :=
  (∀ out ∈ tx.vout, ∀ c, 0 ≤ (out.nValue.amount c).toInt) ∧ ∀ c, total tx.vout c ≤ MAX_MONEY.toInt

/-- `MoneyRange` is right about a value unless some part of it is out of range and the
    smallest is not too high; `CheckTransaction` lets a total through that is above the
    limit unless it finds something else. -/
theorem money_checked_iff (x : Cash) (tx : CTransaction) :
    ((MoneyRange x = true ↔ x.WithinMoney) ↔ x.WithinMoney ∨ MAX_MONEY < x.Min) ∧
      ((tx.CheckTransaction = .ok () → tx.OutputsInRange) ↔ (∀ c, total tx.vout c ≤ MAX_MONEY.toInt) ∨ tx.Refused) := by
  refine ⟨Cash.MoneyRange_exact_iff x,fun right => ?_,fun fine checked => ?_⟩
  · by_cases refused : tx.Refused
    · exact .inr refused
    · exact .inl (right ((CheckTransaction_iff tx).mpr refused)).2
  · obtain ⟨_,_,_,⟨sum,outputs⟩,_,_⟩ := CheckTransaction_ok tx checked
    refine ⟨fun out member c => (checkOutputs_inRange tx.vout {} sum outputs out member c).1,?_⟩
    rcases fine with totals | refused
    · exact totals
    · exact absurd refused ((CheckTransaction_iff tx).mp checked)

private def sampleOutputs : List CTxOut :=
  [⟨Cash.ofMoney ([69],MAX_MONEY),[]⟩,⟨⟨((∅ : CashStruct).insert [69] MAX_MONEY).insert [71] 1,0⟩,[]⟩]
private def sampleTransaction : CTransaction := ⟨2,[⟨⟨7,0⟩,[],0⟩],sampleOutputs,0,[]⟩

/-- A negative amount is in range, and twice the limit in one circuit passes beside a
    little in another. -/
theorem money_unchecked :
    (MoneyRange (Cash.ofMoney ([69],-5)) = true ∧ ¬(Cash.ofMoney ([69],-5)).WithinMoney) ∧
      sampleTransaction.CheckTransaction = .ok () ∧ total sampleTransaction.vout [69] = 2*MAX_MONEY.toInt ∧ ¬sampleTransaction.OutputsInRange := by
  have twice : total sampleTransaction.vout [69] = 2*MAX_MONEY.toInt := by decide +kernel
  refine ⟨⟨by decide +kernel,?_⟩,by decide +kernel,twice,?_⟩
  · rintro ⟨circuits,_⟩
    have nonneg := (circuits [69] (-5) (by decide +kernel)).1
    revert nonneg
    decide
  · rintro ⟨_,totals⟩
    have within := totals [69]
    rw [twice,MAX_MONEY_toInt] at within
    omega

end CTransaction
end Tetra
