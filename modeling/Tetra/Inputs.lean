import Mathlib
import Tetra.Coins

/-!
What passing `CheckInputs` means for the money a transaction moves: in every
circuit the exact total of its outputs is covered by the outputs it spends.
-/
namespace Tetra
open Std

namespace CCoinsViewCache

/-- The outputs that some inputs spend, in their order. -/
def spent (inputs : CCoinsViewCache) (vin : List CTxIn) : List CTxOut :=
  vin.filterMap fun txin => inputs.output txin.prevout

theorem output_eq_some_iff (view : CCoinsViewCache) (prevout : COutPoint) (out : CTxOut) :
    view.output prevout = some out ↔
      ∃ coins, view.GetCoins prevout.hash = some coins ∧ coins.vout[prevout.n]? = some out ∧ out.IsNull = false := by
  rw [output]
  cases found : view.GetCoins prevout.hash with
  | none => simp
  | some coins =>
    cases indexed : coins.vout[prevout.n]? with
    | none => simp [CCoins.IsAvailable,indexed]
    | some other =>
      by_cases null : other.IsNull
      · simp [CCoins.IsAvailable,indexed,null]
        rintro rfl
        exact null
      · simp [CCoins.IsAvailable,indexed,null]
        rintro rfl
        simpa using null

end CCoinsViewCache

namespace CTransaction

theorem haveInputs_iff (tx : CTransaction) (inputs : CCoinsViewCache) (ordinary : tx.IsCoinBase = false) :
    tx.HaveInputs inputs = true ↔ ∀ txin ∈ tx.vin, ∃ out, inputs.output txin.prevout = some out := by
  have each (txin : CTxIn) : (∃ out, inputs.output txin.prevout = some out) ↔
      ∃ coins, inputs.GetCoins txin.prevout.hash = some coins ∧ coins.IsAvailable txin.prevout.n = true := by
    simp only [CCoinsViewCache.output_eq_some_iff]
    constructor
    · rintro ⟨out,coins,fetched,indexed,notNull⟩
      exact ⟨coins,fetched,by simp [CCoins.IsAvailable,indexed,notNull]⟩
    · rintro ⟨coins,fetched,available⟩
      cases indexed : coins.vout[txin.prevout.n]? with
      | none => simp [CCoins.IsAvailable,indexed] at available
      | some out => exact ⟨out,coins,fetched,indexed,by simpa [CCoins.IsAvailable,indexed] using available⟩
  simp only [HaveInputs,ordinary,Bool.false_eq_true,if_false,Bool.and_eq_true,List.all_eq_true,each,CCoinsViewCache.HaveCoins]
  constructor
  · rintro ⟨_,available⟩ txin member
    have here := available txin member
    cases fetched : inputs.GetCoins txin.prevout.hash with
    | none => simp [fetched] at here
    | some coins => exact ⟨coins,rfl,by simpa [fetched] using here⟩
  · intro available
    refine ⟨fun txin member => ?_,fun txin member => ?_⟩
    · obtain ⟨coins,fetched,_⟩ := available txin member
      simp [fetched]
    · obtain ⟨coins,fetched,here⟩ := available txin member
      simpa [fetched] using here

/-- The loop over the inputs adds up what they spend. -/
theorem sumCheckedIn_amount (inputs : CCoinsViewCache) (nSpendHeight : Int) (vin : List CTxIn) (nValueIn result : Cash)
    (available : ∀ txin ∈ vin, ∃ out, inputs.output txin.prevout = some out)
    (summed : sumCheckedIn inputs nSpendHeight nValueIn vin = .ok result) (c : CashName) :
    result.amount c = ((inputs.spent vin).map fun out => out.nValue.amount c).foldl (· + ·) (nValueIn.amount c) := by
  induction vin generalizing nValueIn with
  | nil => simp_all [sumCheckedIn,CCoinsViewCache.spent]
  | cons txin rest ih =>
    obtain ⟨out,found⟩ := available txin (List.mem_cons_self ..)
    obtain ⟨coins,fetched,indexed,_⟩ := (CCoinsViewCache.output_eq_some_iff ..).mp found
    rw [sumCheckedIn] at summed
    simp only [fetched,indexed] at summed
    split at summed
    · contradiction
    split at summed
    · contradiction
    · have later := ih _ (fun other inside => available other (List.mem_cons_of_mem _ inside)) summed
      rw [later]
      simp [CCoinsViewCache.spent,found]

/-- What `CheckInputs` established when it returns true for an ordinary transaction. -/
theorem CheckInputs_ok {env : Env} {tx : CTransaction} {inputs : CCoinsViewCache} {nSpendHeight : Int}
    {fScriptChecks : Bool} {flags : ScriptFlags} {pvChecks : Bool} {checks : List CScriptCheck}
    (ordinary : tx.IsCoinBase = false)
    (accepted : CheckInputs env tx inputs nSpendHeight fScriptChecks flags pvChecks = .ok checks) :
    tx.HaveInputs inputs = true ∧ ∃ nValueIn nValueOut, sumCheckedIn inputs nSpendHeight {} tx.vin = .ok nValueIn ∧
      tx.GetValueOut = .ok nValueOut ∧ nValueIn.lt nValueOut = false ∧ (nValueIn.sub nValueOut).ltAmount 0 = false := by
  rw [CheckInputs,ordinary] at accepted
  simp only [Bool.false_eq_true,if_false] at accepted
  split at accepted
  · contradiction
  next have_ =>
    cases summed : sumCheckedIn inputs nSpendHeight {} tx.vin with
    | error e => simp [summed] at accepted
    | ok nValueIn =>
      cases valued : tx.GetValueOut with
      | error e => simp [summed,valued] at accepted
      | ok nValueOut =>
        simp only [summed,valued] at accepted
        split at accepted
        · contradiction
        split at accepted
        · contradiction
        next covered nonneg =>
          exact ⟨by simpa using have_,nValueIn,nValueOut,rfl,rfl,by simpa using covered,by simpa using nonneg⟩

private theorem spent_length (inputs : CCoinsViewCache) (vin : List CTxIn) :
    (inputs.spent vin).length ≤ vin.length := List.length_filterMap_le ..

/-- An ordinary transaction that passes its checks creates nothing in any circuit. -/
theorem CheckInputs_no_inflation (env : Env) (tx : CTransaction) (inputs : CCoinsViewCache) (nSpendHeight : Int)
    (fScriptChecks : Bool) (flags : ScriptFlags) (pvChecks : Bool) (checks : List CScriptCheck)
    (viewInRange : ∀ prevout out, inputs.output prevout = some out → InRange out)
    (ordinary : tx.IsCoinBase = false) (checked : tx.CheckTransaction = .ok ())
    (accepted : CheckInputs env tx inputs nSpendHeight fScriptChecks flags pvChecks = .ok checks) (c : CashName) :
    total tx.vout c ≤ total (inputs.spent tx.vin) c := by
  obtain ⟨_,_,small,⟨sum,outputsChecked⟩,_,_⟩ := CheckTransaction_ok tx checked
  obtain ⟨have_,nValueIn,nValueOut,summedIn,summedOut,_,feeNonneg⟩ := CheckInputs_ok ordinary accepted
  have available := (haveInputs_iff tx inputs ordinary).mp have_
  have lengths := lengths_le_size tx
  have spentInRange : ∀ out ∈ inputs.spent tx.vin, InRange out := by
    intro out member
    obtain ⟨txin,_,found⟩ := List.mem_filterMap.mp member
    exact viewInRange _ _ found
  have fewSpent : (inputs.spent tx.vin).length ≤ MAX_BLOCK_SIZE := by
    have := spent_length inputs tx.vin
    omega
  obtain ⟨inExact,inNonneg,inHigh⟩ := total_exact _ spentInRange fewSpent c
  obtain ⟨outExact,outNonneg,outHigh⟩ :=
    total_exact _ (checkOutputs_inRange _ _ _ outputsChecked) (by omega) c
  have inAmount : nValueIn.amount c = _ := sumCheckedIn_amount inputs nSpendHeight tx.vin {} nValueIn available summedIn c
  have outAmount : nValueOut.amount c = _ := sumOut_amount tx.vout {} nValueOut summedOut c
  rw [Cash.amount_empty] at inAmount outAmount
  rw [← inAmount] at inExact
  rw [← outAmount] at outExact
  by_contra excess
  have difference : (nValueIn.amount c-nValueOut.amount c).toInt = total (inputs.spent tx.vin) c-total tx.vout c := by
    rw [Wrap.toInt_sub_of_fits (by omega) (by omega),inExact,outExact]
  -- an excess makes the circuit present on the output side, so the fee lists it as negative
  have present : nValueOut.locals[c]? ≠ none := by
    intro absent
    have zero : nValueOut.amount c = 0 := by simp [Cash.amount,absent]
    rw [zero,Int64.toInt_zero] at outExact
    omega
  have fee := Cash.sub_lookup nValueIn nValueOut c (Or.inr present)
  have minNonneg : 0 ≤ (nValueIn.sub nValueOut).Min := by simpa [Cash.ltAmount] using feeNonneg
  have nonneg := Int64.le_iff_toInt_le.mp (Int64.le_trans minNonneg (Cash.Min_le_of_lookup fee))
  rw [difference,Int64.toInt_zero] at nonneg
  omega

private def sampleEnv : Env := ⟨fun _ => 0,fun _ => 0,fun _ _ => 0,fun _ _ _ _ _ => true,fun _ _ _ => true⟩
private def sampleCoin : CTxOut := ⟨Cash.ofMoney ([69],5),[]⟩
private def sampleView : CCoinsViewCache :=
  {base := ⟨fun _ => none,none⟩,cacheCoins := (∅ : ExtTreeMap uint256 CCoins).insert 7 {vout := [sampleCoin],nHeight := 1,nVersion := 2}}
private def sampleSpend : CTransaction := ⟨2,[⟨⟨7,0⟩,[],0⟩],[⟨Cash.ofMoney ([69],3),[]⟩],0,[]⟩

private theorem sampleView_inRange (prevout : COutPoint) (out : CTxOut)
    (found : sampleView.output prevout = some out) : InRange out := by
  obtain ⟨coins,fetched,indexed,_⟩ := (CCoinsViewCache.output_eq_some_iff ..).mp found
  have only : coins.vout = [sampleCoin] := by
    simp only [CCoinsViewCache.GetCoins,sampleView,ExtTreeMap.getElem?_insert] at fetched
    by_cases same : compare 7 prevout.hash = .eq
    · simp only [same,if_true,Option.some.injEq] at fetched
      rw [← fetched]
    · simp [same] at fetched
  have value : out = sampleCoin := by
    have member := List.mem_of_getElem? indexed
    rw [only] at member
    simpa using member
  subst value
  intro c
  rw [sampleCoin,Cash.ofMoney_amount]
  by_cases same : [69] = c <;> simp only [same,if_true,if_false] <;> decide

theorem CheckInputs_no_inflation_sample :
    total sampleSpend.vout [69] ≤ total (sampleView.spent sampleSpend.vin) [69] :=
  CheckInputs_no_inflation sampleEnv sampleSpend sampleView 2 true {} false [] sampleView_inRange (by decide)
    (by decide +kernel) (by decide +kernel) [69]

end CTransaction
end Tetra
