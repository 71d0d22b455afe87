import Mathlib
import Tetra.Primitives
import Tetra.Wrap

/-!
The checks on a transaction that need no chain: sizes, value ranges, distinct
inputs. A transaction that passes has outputs whose wrapped total in every
circuit is the exact one.
-/
namespace Tetra
open Std

namespace CTransaction

/-- The loop of `GetValueOut`, from the sum so far. -/
def sumOut (nValueOut : Cash) : List CTxOut → Except Reject Cash
  | [] => .ok nValueOut
  | txout :: rest =>
    let nValueOut := nValueOut.addAssign txout.nValue
    if MoneyRange nValueOut = false then
      .error (.throws "CTransaction::GetValueOut() : value out of range")
    else sumOut nValueOut rest

def GetValueOut (tx : CTransaction) : Except Reject Cash := sumOut {} tx.vout

/-- The output loop of `CheckTransaction`. -/
def checkOutputs (nValueOut : Cash) : List CTxOut → Except Reject Cash
  | [] => .ok nValueOut
  | txout :: rest =>
    if txout.nValue.ltAmount 0 then
      .error (.DoS 100 false "CTransaction::CheckTransaction() : txout.nValue negative")
    else if txout.nValue.gtAmount MAX_MONEY then
      .error (.DoS 100 false "CTransaction::CheckTransaction() : txout.nValue too high")
    else
      let nValueOut := nValueOut.addAssign txout.nValue
      if MoneyRange nValueOut = false then
        .error (.DoS 100 false "CTransaction::CheckTransaction() : txout total out of range")
      else checkOutputs nValueOut rest

/-- The duplicate input loop of `CheckTransaction`; `vInOutPoints` are those seen so far. -/
def duplicateInputs (vInOutPoints : List COutPoint) : List CTxIn → Bool
  | [] => false
  | txin :: rest =>
    if txin.prevout ∈ vInOutPoints then true else duplicateInputs (txin.prevout :: vInOutPoints) rest

/-- The last part of `CheckTransaction`: the coinbase script, or no null inputs. -/
def checkPrevouts (tx : CTransaction) : Except Reject Unit :=
  if tx.IsCoinBase then
    match tx.vin with
    | txin :: _ =>
      if txin.scriptSig.length < 2 ∨ txin.scriptSig.length > 100 then
        .error (.DoS 100 false "CTransaction::CheckTransaction() : coinbase script size")
      else .ok ()
    | [] => .ok ()
  else if tx.vin.any fun txin => txin.prevout.IsNull then
    .error (.DoS 10 false "CTransaction::CheckTransaction() : prevout is null")
  else .ok ()

def CheckTransaction (tx : CTransaction) : Except Reject Unit :=
  if tx.vin.isEmpty then .error (.DoS 10 false "CTransaction::CheckTransaction() : vin empty")
  else if tx.vout.isEmpty then .error (.DoS 10 false "CTransaction::CheckTransaction() : vout empty")
  else if tx.GetSerializeSize > MAX_BLOCK_SIZE then
    .error (.DoS 100 false "CTransaction::CheckTransaction() : size limits failed")
  else
    match checkOutputs {} tx.vout with
    | .error e => .error e
    | .ok _ =>
      if duplicateInputs [] tx.vin then
        .error (.DoS 100 false "CTransaction::CheckTransaction() : duplicate inputs")
      else tx.checkPrevouts


/-- What one accepted output promises in every circuit. -/
def InRange (out : CTxOut) : Prop := ∀ c, 0 ≤ (out.nValue.amount c).toInt ∧ (out.nValue.amount c).toInt ≤ MAX_MONEY.toInt

/-- The exact total of some outputs in one circuit. -/
def total (outs : List CTxOut) (c : CashName) : Int := (outs.map fun out => (out.nValue.amount c).toInt).sum

theorem MAX_MONEY_toInt : MAX_MONEY.toInt = 1840000000000 := by decide

private theorem inRange_of_bounds (out : CTxOut) (low : out.nValue.ltAmount 0 = false)
    (high : out.nValue.gtAmount MAX_MONEY = false) : InRange out := by
  intro c
  cases found : out.nValue.locals[c]? with
  | none => simp [Cash.amount,found,MAX_MONEY_toInt]
  | some v =>
    rw [Cash.amount_of_lookup found]
    have nonneg : 0 ≤ v := by
      have min : 0 ≤ out.nValue.Min := by simpa [Cash.ltAmount] using low
      exact Int64.le_trans min (Cash.Min_le_of_lookup found)
    have le : v ≤ MAX_MONEY := by
      have max : out.nValue.Max ≤ MAX_MONEY := by simpa [Cash.gtAmount] using high
      exact ((Cash.Max_le_iff _ _).mp max).2.1 c v found
    exact ⟨Int64.le_iff_toInt_le.mp nonneg,Int64.le_iff_toInt_le.mp le⟩

theorem checkOutputs_inRange (outs : List CTxOut) (nValueOut result : Cash)
    (accepted : checkOutputs nValueOut outs = .ok result) : ∀ out ∈ outs, InRange out := by
  induction outs generalizing nValueOut with
  | nil => simp
  | cons txout rest ih =>
    rw [checkOutputs] at accepted
    split at accepted
    · contradiction
    split at accepted
    · contradiction
    dsimp only at accepted
    split at accepted
    · contradiction
    next low high _ =>
      intro out member
      rcases List.mem_cons.mp member with rfl | later
      · exact inRange_of_bounds _ (by simpa using low) (by simpa using high)
      · exact ih _ accepted out later

/-- The output checks add up to what `GetValueOut` returns, so it does not throw. -/
theorem GetValueOut_of_checkOutputs (outs : List CTxOut) (nValueOut result : Cash)
    (accepted : checkOutputs nValueOut outs = .ok result) : sumOut nValueOut outs = .ok result := by
  induction outs generalizing nValueOut with
  | nil => simpa [checkOutputs,sumOut] using accepted
  | cons txout rest ih =>
    rw [checkOutputs] at accepted
    split at accepted
    · contradiction
    split at accepted
    · contradiction
    dsimp only at accepted
    split at accepted
    · contradiction
    next inRange =>
      rw [sumOut,if_neg inRange]
      exact ih _ accepted

/-- Every circuit of a sum is the wrapped sum of that circuit. -/
theorem sumOut_amount (outs : List CTxOut) (nValueOut result : Cash)
    (summed : sumOut nValueOut outs = .ok result) (c : CashName) :
    result.amount c = (outs.map fun out => out.nValue.amount c).foldl (· + ·) (nValueOut.amount c) := by
  induction outs generalizing nValueOut with
  | nil => simp_all [sumOut]
  | cons txout rest ih =>
    rw [sumOut] at summed
    split at summed
    · contradiction
    · rw [ih _ summed]
      simp

/-- What `CheckTransaction` established when it returns true. -/
theorem CheckTransaction_ok (tx : CTransaction) (checked : tx.CheckTransaction = .ok ()) :
    tx.vin ≠ [] ∧ tx.vout ≠ [] ∧ tx.GetSerializeSize ≤ MAX_BLOCK_SIZE ∧
      (∃ sum, checkOutputs {} tx.vout = .ok sum) ∧ duplicateInputs [] tx.vin = false ∧ tx.checkPrevouts = .ok () := by
  rw [CheckTransaction] at checked
  split at checked
  · contradiction
  split at checked
  · contradiction
  split at checked
  · contradiction
  next vinFilled voutFilled fits =>
    cases outputs : checkOutputs {} tx.vout with
    | error e => simp [outputs] at checked
    | ok sum =>
      simp only [outputs] at checked
      split at checked
      · contradiction
      next distinct =>
        exact ⟨by simpa using vinFilled,by simpa using voutFilled,by omega,⟨sum,rfl⟩,by simpa using distinct,checked⟩

private theorem length_le_sum (sizes : List Nat) (positive : ∀ size ∈ sizes, 1 ≤ size) :
    sizes.length ≤ sizes.sum := by
  induction sizes with
  | nil => simp
  | cons size rest ih =>
    have first := positive size (List.mem_cons_self ..)
    have others := ih fun other later => positive other (List.mem_cons_of_mem _ later)
    simp only [List.length_cons,List.sum_cons]
    omega

/-- Inputs and outputs take at least one byte each. -/
theorem lengths_le_size (tx : CTransaction) : tx.vin.length ≤ tx.GetSerializeSize ∧ tx.vout.length ≤ tx.GetSerializeSize := by
  have inputs : tx.vin.length ≤ (tx.vin.map CTxIn.GetSerializeSize).sum := by
    have := length_le_sum (tx.vin.map CTxIn.GetSerializeSize) (by
      intro size member
      obtain ⟨txin,_,rfl⟩ := List.mem_map.mp member
      simp only [CTxIn.GetSerializeSize]
      omega)
    simpa using this
  have outputs : tx.vout.length ≤ (tx.vout.map CTxOut.GetSerializeSize).sum := by
    have := length_le_sum (tx.vout.map CTxOut.GetSerializeSize) (by
      intro size member
      obtain ⟨out,_,rfl⟩ := List.mem_map.mp member
      have compact : 1 ≤ GetSizeOfCompactSize out.nValue.size := by
        unfold GetSizeOfCompactSize
        split_ifs <;> omega
      simp only [CTxOut.GetSerializeSize,Cash.GetSerializeSize]
      omega)
    simpa using this
  simp only [GetSerializeSize]
  omega

/-- Outputs in range, no more of them than a block has bytes: nothing wraps. -/
theorem total_exact (outs : List CTxOut) (inRange : ∀ out ∈ outs, InRange out) (few : outs.length ≤ MAX_BLOCK_SIZE)
    (c : CashName) :
    ((outs.map fun (out : CTxOut) => out.nValue.amount c).foldl (· + ·) 0).toInt = total outs c ∧
      0 ≤ total outs c ∧ total outs c ≤ 2^62 := by
  let amounts : List Amount := outs.map fun out => out.nValue.amount c
  have each : ∀ x ∈ amounts, 0 ≤ x.toInt ∧ x.toInt ≤ MAX_MONEY.toInt := by
    intro x member
    obtain ⟨out,inside,rfl⟩ := List.mem_map.mp member
    exact inRange out inside c
  have count : (amounts.length : Int) ≤ 1000000 := by
    simp only [amounts,List.length_map]
    simp only [MAX_BLOCK_SIZE] at few
    omega
  have fits : (0 : Int64).toInt+amounts.length*MAX_MONEY.toInt < 2^63 := by
    rw [MAX_MONEY_toInt,Int64.toInt_zero]
    omega
  have exact_sum := Wrap.toInt_foldl_add amounts MAX_MONEY.toInt each 0 (by decide) fits
  have bounds := Wrap.sum_toInt_bounds amounts MAX_MONEY.toInt each
  have same : (amounts.map Int64.toInt).sum = total outs c := by
    simp [amounts,total,List.map_map,Function.comp_def]
  rw [same] at exact_sum bounds
  rw [MAX_MONEY_toInt] at bounds
  refine ⟨by simpa using exact_sum,bounds.1,?_⟩
  omega

end CTransaction
end Tetra
