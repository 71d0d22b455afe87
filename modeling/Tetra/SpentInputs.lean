import Mathlib
import Tetra.Script
import Tetra.Utxo

/-!
Of a view the checks on a transaction read only the outputs that it spends: where two views
have the same of these, the transaction is worth the same, counts the same signature checks
and passes the same tests.
-/
namespace Tetra
open Std

namespace CCoinsViewCache

/-- Both have what the inputs spend, and in the second it can be spent at this height. -/
def SameInputs (nSpendHeight : Int) (a b : CCoinsViewCache) (vin : List CTxIn) : Prop :=
  ∀ txin ∈ vin, ∃ c d, a.ledger txin.prevout = some c ∧ b.ledger txin.prevout = some d ∧ d.txout = c.txout ∧
    (d.fCoinBase = true → d.nHeight ≤ nSpendHeight)

section
variable {a b view : CCoinsViewCache} {nSpendHeight : Int} {vin : List CTxIn} {tx : CTransaction}

theorem of_ledger {out : COutPoint} {coin : Coin} (found : view.ledger out = some coin) :
    ∃ coins, view.GetCoins out.hash = some coins ∧ coins.vout[out.n]? = some coin.txout ∧ coins.IsAvailable out.n = true ∧
      coins.fCoinBase = coin.fCoinBase ∧ coins.nHeight = coin.nHeight := by
  rw [ledger] at found
  split at found
  · contradiction
  next coins fetched =>
    obtain ⟨txout,indexed,present,rfl⟩ := (CCoins.coin_eq_some_iff ..).mp found
    exact ⟨coins,fetched,indexed,by simp [CCoins.IsAvailable,indexed,present],rfl,rfl⟩

theorem GetOutputFor_of_ledger {txin : CTxIn} {coin : Coin} (found : view.ledger txin.prevout = some coin) :
    CTransaction.GetOutputFor txin view = .ok coin.txout := by
  obtain ⟨coins,fetched,indexed,available,_⟩ := of_ledger found
  simp [CTransaction.GetOutputFor,fetched,available,indexed]

theorem haveInputs_ledger (ordinary : tx.IsCoinBase = false) :
    tx.HaveInputs view = true ↔ ∀ txin ∈ tx.vin, view.ledger txin.prevout ≠ none := by
  rw [CTransaction.haveInputs_iff tx view ordinary]
  refine forall₂_congr fun txin _ => ?_
  simp only [output_eq_some_iff,ledger]
  cases view.GetCoins txin.prevout.hash with
  | none => simp
  | some coins =>
    rw [Option.ne_none_iff_exists']
    simp only [CCoins.coin_eq_some_iff]
    constructor
    · rintro ⟨out,_,same,indexed,present⟩
      obtain rfl := Option.some.inj same
      exact ⟨_,out,indexed,present,rfl⟩
    · rintro ⟨_,out,indexed,present,_⟩
      exact ⟨out,coins,rfl,indexed,present⟩

theorem SameInputs.tail {txin : CTxIn} (same : SameInputs nSpendHeight a b (txin :: vin)) : SameInputs nSpendHeight a b vin :=
  fun other member => same other (List.mem_cons_of_mem _ member)

/-- The output of the first input, found in both. -/
theorem SameInputs.first {txin : CTxIn} (same : SameInputs nSpendHeight a b (txin :: vin)) :
    ∃ out, CTransaction.GetOutputFor txin a = .ok out ∧ CTransaction.GetOutputFor txin b = .ok out := by
  obtain ⟨c,d,left,right,equal,_⟩ := same txin (List.mem_cons_self ..)
  exact ⟨c.txout,GetOutputFor_of_ledger left,by rw [GetOutputFor_of_ledger right,equal]⟩

theorem SameInputs.present (same : SameInputs nSpendHeight a b vin) :
    (∀ txin ∈ vin, a.ledger txin.prevout ≠ none) ∧ ∀ txin ∈ vin, b.ledger txin.prevout ≠ none := by
  constructor
  · intro txin member
    obtain ⟨c,_,left,_⟩ := same txin member
    rw [left]
    exact Option.some_ne_none c
  · intro txin member
    obtain ⟨_,d,_,right,_⟩ := same txin member
    rw [right]
    exact Option.some_ne_none d

end
end CCoinsViewCache

namespace CTransaction
open CCoinsViewCache

section
variable {a b view : CCoinsViewCache} {nSpendHeight : Int} {vin : List CTxIn} {tx : CTransaction}

theorem sumIn_same (same : SameInputs nSpendHeight a b vin) (nResult : Cash) : sumIn b nResult vin = sumIn a nResult vin := by
  induction vin generalizing nResult with
  | nil => rfl
  | cons txin rest ih =>
    obtain ⟨out,left,right⟩ := same.first
    rw [sumIn,sumIn,left,right]
    exact ih same.tail _

theorem GetValueIn_same (same : SameInputs nSpendHeight a b tx.vin) : tx.GetValueIn b = tx.GetValueIn a := by
  rw [GetValueIn,GetValueIn,sumIn_same same]

theorem countP2SH_same (same : SameInputs nSpendHeight a b vin) : countP2SH b vin = countP2SH a vin := by
  induction vin with
  | nil => rfl
  | cons txin rest ih =>
    obtain ⟨out,left,right⟩ := same.first
    rw [countP2SH,countP2SH,left,right,ih same.tail]

theorem GetP2SHSigOpCount_same (same : SameInputs nSpendHeight a b tx.vin) : tx.GetP2SHSigOpCount b = tx.GetP2SHSigOpCount a := by
  rw [GetP2SHSigOpCount,GetP2SHSigOpCount,countP2SH_same same]

theorem scriptChecks_same (same : SameInputs nSpendHeight a b vin) (flags : ScriptFlags) (i : Nat) :
    tx.scriptChecks b flags i vin = tx.scriptChecks a flags i vin := by
  induction vin generalizing i with
  | nil => rfl
  | cons txin rest ih =>
    obtain ⟨out,left,right⟩ := same.first
    rw [scriptChecks,scriptChecks,left,right]
    exact congrArg _ (ih same.tail (i+1))

/-- What may be spent is added up in the same way. -/
theorem sumCheckedIn_same {nHeight : Int} (same : SameInputs nSpendHeight a b vin) {nValueIn result : Cash}
    (summed : sumCheckedIn a nHeight nValueIn vin = .ok result) : sumCheckedIn b nSpendHeight nValueIn vin = .ok result := by
  induction vin generalizing nValueIn with
  | nil => exact summed
  | cons txin rest ih =>
    obtain ⟨c,d,left,right,equal,mature⟩ := same txin (List.mem_cons_self ..)
    obtain ⟨coins,fetched,indexed,_⟩ := of_ledger left
    obtain ⟨coins',fetched',indexed',_,base,height⟩ := of_ledger right
    rw [sumCheckedIn,fetched] at summed
    dsimp only at summed
    split at summed
    · contradiction
    rw [indexed] at summed
    dsimp only at summed
    split at summed
    · contradiction
    next inRange =>
      have old : ¬(coins'.fCoinBase = true ∧ nSpendHeight-coins'.nHeight < COINBASE_MATURITY) := by
        rintro ⟨isBase,early⟩
        have := mature (base ▸ isBase)
        rw [height] at early
        simp only [COINBASE_MATURITY] at early
        omega
      rw [sumCheckedIn,fetched']
      dsimp only
      rw [if_neg old,indexed',equal]
      dsimp only
      rw [if_neg inRange]
      exact ih same.tail summed

/-- A coinbase that passed is old enough. -/
theorem sumCheckedIn_mature {nValueIn result : Cash} (summed : sumCheckedIn view nSpendHeight nValueIn vin = .ok result) {txin : CTxIn}
    (member : txin ∈ vin) {coin : Coin} (found : view.ledger txin.prevout = some coin) (isBase : coin.fCoinBase = true) :
    coin.nHeight ≤ nSpendHeight := by
  induction vin generalizing nValueIn with
  | nil => exact absurd member List.not_mem_nil
  | cons first rest ih =>
    rw [sumCheckedIn] at summed
    split at summed
    · contradiction
    next coins fetched =>
      split at summed
      · contradiction
      next mature =>
        split at summed
        · contradiction
        dsimp only at summed
        split at summed
        · contradiction
        · rcases List.mem_cons.mp member with rfl | later
          · obtain ⟨coins',fetched',_,_,base,height⟩ := of_ledger found
            obtain rfl : coins' = coins := by simpa [fetched] using fetched'.symm
            by_contra early
            refine mature ⟨base.trans isBase,?_⟩
            simp only [COINBASE_MATURITY]
            omega
          · exact ih summed later

/-- The values of inputs that are there add up. -/
theorem sumIn_succeeds (there : ∀ txin ∈ vin, view.ledger txin.prevout ≠ none) (nResult : Cash) :
    ∃ result, sumIn view nResult vin = .ok result := by
  induction vin generalizing nResult with
  | nil => exact ⟨nResult,rfl⟩
  | cons txin rest ih =>
    obtain ⟨coin,found⟩ := Option.ne_none_iff_exists'.mp (there txin (List.mem_cons_self ..))
    rw [sumIn,GetOutputFor_of_ledger found]
    exact ih (fun other member => there other (List.mem_cons_of_mem _ member)) _

theorem countP2SH_succeeds (there : ∀ txin ∈ vin, view.ledger txin.prevout ≠ none) : ∃ nSigOps, countP2SH view vin = .ok nSigOps := by
  induction vin with
  | nil => exact ⟨0,rfl⟩
  | cons txin rest ih =>
    obtain ⟨coin,found⟩ := Option.ne_none_iff_exists'.mp (there txin (List.mem_cons_self ..))
    obtain ⟨nSigOps,counts⟩ := ih fun other member => there other (List.mem_cons_of_mem _ member)
    rw [countP2SH,GetOutputFor_of_ledger found,counts]
    exact ⟨_,rfl⟩

theorem runScriptChecks_ok {env : Env} {checks : List CScriptCheck} :
    runScriptChecks env checks = .ok () ↔ ∀ check ∈ checks, check.run env = true := by
  induction checks with
  | nil => simp [runScriptChecks]
  | cons check rest ih =>
    rw [runScriptChecks,List.forall_mem_cons]
    by_cases passes : check.run env = true
    · rw [if_pos passes,ih]
      simp [passes]
    · rw [if_neg passes]
      refine iff_of_false ?_ fun both => passes both.1
      split <;> simp

/-- Other flags give the same checks with these flags. -/
theorem scriptChecks_flags (flags flags' : ScriptFlags) {i : Nat} :
    tx.scriptChecks view flags' i vin = (tx.scriptChecks view flags i vin).map fun check => {check with nFlags := flags'} := by
  induction vin generalizing i with
  | nil => rfl
  | cons txin rest ih =>
    rw [scriptChecks,scriptChecks]
    split
    · exact ih
    · rw [ih]
      rfl

theorem scriptChecks_nFlags {flags : ScriptFlags} {i : Nat} {check : CScriptCheck} (member : check ∈ tx.scriptChecks view flags i vin) :
    check.nFlags = flags := by
  rw [scriptChecks_flags flags flags] at member
  obtain ⟨_,_,rfl⟩ := List.mem_map.mp member
  rfl

/-- What passes under some flags passes under others. -/
def Relaxes (env : Env) (flags flags' : ScriptFlags) : Prop :=
  ∀ scriptSig scriptPubKey tx nIn, env.VerifyScript scriptSig scriptPubKey tx nIn flags = true →
    env.VerifyScript scriptSig scriptPubKey tx nIn flags' = true

theorem Relaxes.refl (env : Env) (flags : ScriptFlags) : Relaxes env flags flags := fun _ _ _ _ passes => passes

theorem run_relaxed {env : Env} {flags flags' : ScriptFlags} (relaxes : Relaxes env flags flags') {check : CScriptCheck}
    (marked : check.nFlags = flags) (passes : check.run env = true) : CScriptCheck.run env {check with nFlags := flags'} = true := by
  rw [CScriptCheck.run] at passes
  rw [CScriptCheck.run]
  dsimp only
  split at passes
  · contradiction
  · rw [marked] at passes
    exact relaxes _ _ _ _ passes

/-- What `CheckInputs` asks before it comes to the scripts. -/
structure Pays (tx : CTransaction) (view : CCoinsViewCache) (nSpendHeight : Int) (nValueIn nValueOut : Cash) : Prop where
  there : tx.HaveInputs view = true
  summed : sumCheckedIn view nSpendHeight {} tx.vin = .ok nValueIn
  valued : tx.GetValueOut = .ok nValueOut
  covered : nValueIn.lt nValueOut = false
  fee : (nValueIn.sub nValueOut).ltAmount 0 = false
  inRange : MoneyRange (({} : Cash).addAssign (nValueIn.sub nValueOut)) = true

theorem CheckInputs_pays {env : Env} {fScriptChecks : Bool} {flags : ScriptFlags} {pvChecks : Bool} {checks : List CScriptCheck}
    (ordinary : tx.IsCoinBase = false) (passed : CheckInputs env tx view nSpendHeight fScriptChecks flags pvChecks = .ok checks) :
    ∃ nValueIn nValueOut, Pays tx view nSpendHeight nValueIn nValueOut := by
  obtain ⟨there,nValueIn,nValueOut,summed,valued,covered,fee⟩ := CheckInputs_ok ordinary passed
  refine ⟨nValueIn,nValueOut,there,summed,valued,covered,fee,?_⟩
  by_contra out
  have refused := Bool.eq_false_iff.mpr out
  rw [CheckInputs,ordinary,there,summed] at passed
  simp [valued,covered,fee,refused] at passed

theorem CheckInputs_scripts {env : Env} {flags : ScriptFlags} {nValueIn nValueOut : Cash} (ordinary : tx.IsCoinBase = false)
    (pays : Pays tx view nSpendHeight nValueIn nValueOut) (pvChecks : Bool) :
    CheckInputs env tx view nSpendHeight true flags pvChecks =
      if pvChecks then .ok (tx.scriptChecks view flags 0 tx.vin)
      else (runScriptChecks env (tx.scriptChecks view flags 0 tx.vin)).map fun _ => [] := by
  rw [CheckInputs,ordinary,pays.there,pays.summed]
  simp only [Bool.false_eq_true,Bool.true_eq_false,if_false,pays.valued,pays.covered,pays.fee,pays.inRange]
  cases runScriptChecks env (tx.scriptChecks view flags 0 tx.vin) <;> rfl

theorem Pays.same {nHeight : Int} {nValueIn nValueOut : Cash} (ordinary : tx.IsCoinBase = false) (same : SameInputs nSpendHeight a b tx.vin)
    (pays : Pays tx a nHeight nValueIn nValueOut) : Pays tx b nSpendHeight nValueIn nValueOut where
  there := (haveInputs_ledger ordinary).mpr same.present.2
  summed := sumCheckedIn_same same pays.summed
  valued := pays.valued
  covered := pays.covered
  fee := pays.fee
  inRange := pays.inRange

/-- A transaction that passed in one view passes in another that has the same outputs for
    it, under flags that ask no more; the checks that are left for later succeed. -/
theorem CheckInputs_same {env : Env} {flags flags' : ScriptFlags} {nHeight : Int} {checks : List CScriptCheck} (pvChecks : Bool)
    (ordinary : tx.IsCoinBase = false) (same : SameInputs nSpendHeight a b tx.vin) (relaxes : Relaxes env flags flags')
    (passed : CheckInputs env tx a nHeight true flags false = .ok checks) :
    ∃ checks', CheckInputs env tx b nSpendHeight true flags' pvChecks = .ok checks' ∧ ∀ check ∈ checks', check.run env = true := by
  obtain ⟨nValueIn,nValueOut,pays⟩ := CheckInputs_pays ordinary passed
  rw [CheckInputs_scripts ordinary pays,if_neg Bool.false_ne_true] at passed
  have ran : ∀ check ∈ tx.scriptChecks a flags 0 tx.vin, check.run env = true := by
    cases ran : runScriptChecks env (tx.scriptChecks a flags 0 tx.vin) with
    | error e =>
      rw [ran] at passed
      contradiction
    | ok => exact runScriptChecks_ok.mp ran
  have succeed : ∀ check ∈ tx.scriptChecks b flags' 0 tx.vin, check.run env = true := by
    intro check member
    rw [scriptChecks_same same,scriptChecks_flags flags flags'] at member
    obtain ⟨first,inside,rfl⟩ := List.mem_map.mp member
    exact run_relaxed relaxes (scriptChecks_nFlags inside) (ran first inside)
  rw [CheckInputs_scripts ordinary (pays.same ordinary same)]
  cases pvChecks with
  | true => exact ⟨_,rfl,succeed⟩
  | false =>
    rw [runScriptChecks_ok.mpr succeed]
    exact ⟨[],rfl,fun _ member => absurd member List.not_mem_nil⟩

end
end CTransaction
end Tetra
