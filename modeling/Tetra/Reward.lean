import Mathlib
import Tetra.Block
import Tetra.Utxo

/-!
What the coinbase of a block is allowed to pay, and what `ConnectBlock` compares
it with. The allowance counts the fees of the block circuit by circuit; the
comparison sees only the circuits the coinbase lists, and no fees at all.
-/
namespace Tetra
open Std

namespace CTransaction

/-- Inputs minus outputs in one circuit, exactly; a coinbase pays no fee. -/
def fee (tx : CTransaction) (ledger : COutPoint → Option Coin) (c : CashName) : Int :=
  if tx.IsCoinBase then 0
  else total (tx.prevouts.filterMap fun out => (ledger out).map Coin.txout) c-total tx.vout c

/-- A circuit that some output lists. -/
def Lists (tx : CTransaction) (c : CashName) : Prop := ∃ out ∈ tx.vout, out.nValue.locals[c]? ≠ none

end CTransaction

/-- The fees of some transactions applied in order from a ledger. -/
def blockFees (env : Env) (nHeight : Nat) : (COutPoint → Option Coin) → List CTransaction → CashName → Int
  | _,[],_ => 0
  | ledger,tx :: rest,c => tx.fee ledger c+blockFees env nHeight (tx.applyTo (env.TxHash tx) nHeight ledger) rest c

/-- What the chain issues at a height in one circuit. -/
def issued (nHeight : Nat) (c : CashName) : Int :=
  match subsidy nHeight with
  | none => 0
  | some (name,amount) => if name = c then amount.toInt else 0

namespace CBlock

/-- What the coinbase pays out in one circuit, exactly. -/
def coinbasePays (block : CBlock) (c : CashName) : Int := (block.vtx.head?.map fun tx => CTransaction.total tx.vout c).getD 0

/-- What the coinbase may pay out in one circuit: the issue and the fees. -/
def allowance (env : Env) (block : CBlock) (nHeight : Nat) (view : CCoinsViewCache) (c : CashName) : Int :=
  issued nHeight c+blockFees env nHeight view.ledger block.vtx c

/-- The coinbase pays more than the issue alone in every circuit it lists, and it
    lists one or the height has an issue. -/
def OverIssue (block : CBlock) (nHeight : Nat) : Prop :=
  ((∃ tx ∈ block.vtx.head?, ∃ c, tx.Lists c) ∨ subsidy nHeight ≠ none) ∧
    ∀ tx ∈ block.vtx.head?, ∀ c, tx.Lists c → issued nHeight c < CTransaction.total tx.vout c

/-- Everything `ConnectBlock` looks at before the reward passes, and the loop over
    the transactions ends in `s`. -/
structure ReachesReward (env : Env) (ambient : Ambient) (block : CBlock) (pindex : CBlockIndex) (view : CCoinsViewCache)
    (fJustCheck : Bool) (s : ConnectState) : Prop where
  checked : block.CheckBlock env ambient (!fJustCheck) = .ok ()
  onTip : pindex.pprev = view.GetBestBlock
  fresh : block.overwrites env view = false
  connected : connectTransactions env (connectParams ambient pindex) {view := view} block.vtx = .ok s

/-- Everything `ConnectBlock` does after the reward passes. -/
def RestPasses (env : Env) (disk : DiskWrites) (pindex : CBlockIndex) (fJustCheck : Bool) (s : ConnectState) : Prop :=
  s.vChecks.all (CScriptCheck.run env) = true ∧
    (fJustCheck = false → ∃ view, (recordBlock disk pindex s.view ⟨s.vtxundo⟩).result = .ok view)

def coinbasePaysTooMuch : Reject :=
  .DoS 100 false "ConnectBlock() : coinbase pays too much (actual=%s vs limit=%s)"

end CBlock

/-- The loop never puts a circuit into the fees. -/
theorem connectTransactions_nFees {env : Env} {params : ConnectParams} {s s' : ConnectState} {txs : List CTransaction}
    (connects : connectTransactions env params s txs = .ok s') : s'.nFees.locals = s.nFees.locals := by
  induction txs generalizing s with
  | nil =>
    obtain rfl : s = s' := by simpa [connectTransactions] using connects
    rfl
  | cons tx rest ih =>
    rw [connectTransactions] at connects
    split at connects
    · contradiction
    next next turn =>
      rw [ih connects]
      rcases connectTransaction_ok turn with ⟨_,_,same,_⟩ | ⟨_,_,_,_,_,_,_,_,_,_,added,_⟩
      · rw [same]
      · rw [added]
        rfl

namespace CTransaction

private theorem sumOut_lists (outs : List CTxOut) (nValueOut result : Cash) (summed : sumOut nValueOut outs = .ok result)
    (c : CashName) :
    result.locals[c]? ≠ none ↔ nValueOut.locals[c]? ≠ none ∨ ∃ out ∈ outs, out.nValue.locals[c]? ≠ none := by
  induction outs generalizing nValueOut with
  | nil => simp_all [sumOut]
  | cons txout rest ih =>
    rw [sumOut] at summed
    split at summed
    · contradiction
    · rw [ih _ summed]
      have one : (nValueOut.addAssign txout.nValue).locals[c]? ≠ none ↔
          nValueOut.locals[c]? ≠ none ∨ txout.nValue.locals[c]? ≠ none := by
        simp only [Cash.addAssign,Maps.getElem?_mergeInto]
        cases txout.nValue.locals[c]? <;> simp
      rw [one,or_assoc]
      simp

end CTransaction

theorem GetBlockValue_amount (nHeight : Nat) (nFees : Fees) (plain : nFees.locals = ∅) (c : CashName) :
    ((GetBlockValue nHeight nFees).amount c).toInt = issued nHeight c := by
  have none (c : CashName) : nFees.amount c = 0 := by simp [Cash.amount,plain]
  rw [GetBlockValue,issued]
  cases subsidy nHeight with
  | none => simp [none]
  | some issue =>
    obtain ⟨name,amount⟩ := issue
    simp only [Cash.add_amount,Cash.ofMoney_amount,none]
    by_cases same : name = c <;> simp [same]

theorem GetBlockValue_size (nHeight : Nat) (nFees : Fees) (plain : nFees.locals = ∅) :
    (GetBlockValue nHeight nFees).size ≠ 0 ↔ subsidy nHeight ≠ none := by
  rw [GetBlockValue]
  cases subsidy nHeight with
  | none => simp [Cash.size,plain]
  | some issue =>
    suffices present : ((Cash.ofMoney issue).add nFees).locals[issue.1]? ≠ Option.none by
      simp only [ne_eq,Cash.size_eq_zero_iff,reduceCtorEq,not_false_iff,iff_true]
      exact fun absent => present (absent issue.1)
    simp [Cash.add,Cash.addAssign,Maps.getElem?_mergeInto,Cash.ofMoney,plain]

namespace CBlock

/-- The comparison of `ConnectBlock` decides whether the coinbase is over the issue
    in every circuit it lists. -/
theorem gt_GetBlockValue_iff {block : CBlock} {coinbase : CTransaction} {rest : List CTransaction}
    (listed : block.vtx = coinbase :: rest) (checked : coinbase.CheckTransaction = .ok ()) {nValueOut : Cash}
    (summed : coinbase.GetValueOut = .ok nValueOut) (nHeight : Nat) (nFees : Fees) (plain : nFees.locals = ∅) :
    nValueOut.gt (GetBlockValue nHeight nFees) = true ↔ block.OverIssue nHeight := by
  obtain ⟨_,_,small,⟨sum,outputsChecked⟩,_,_⟩ := CTransaction.CheckTransaction_ok coinbase checked
  have lengths := CTransaction.lengths_le_size coinbase
  have amounts (c : CashName) : (nValueOut.amount c).toInt = CTransaction.total coinbase.vout c := by
    rw [CTransaction.sumOut_amount _ _ _ summed c,Cash.amount_empty]
    exact (CTransaction.total_exact _ (CTransaction.checkOutputs_inRange _ _ _ outputsChecked) (by omega) c).1
  have lists (c : CashName) : nValueOut.locals[c]? ≠ none ↔ coinbase.Lists c := by
    rw [CTransaction.sumOut_lists _ _ _ summed c]
    simp [CTransaction.Lists]
  have someCircuit : nValueOut.size ≠ 0 ↔ ∃ c, coinbase.Lists c := by
    simp only [ne_eq,Cash.size_eq_zero_iff,not_forall]
    exact exists_congr lists
  rw [Cash.gt_iff,someCircuit,GetBlockValue_size nHeight nFees plain,OverIssue,listed]
  simp only [List.head?_cons,Option.mem_def,Option.some.injEq,exists_eq_left',forall_eq']
  refine and_congr_right fun _ => forall_congr' fun c => ?_
  rw [← lists c]
  constructor
  · intro above present
    obtain ⟨v,found⟩ := Option.ne_none_iff_exists'.mp present
    have := Int64.lt_iff_toInt_lt.mp (above v found)
    rwa [GetBlockValue_amount nHeight nFees plain,← Cash.amount_of_lookup found,amounts] at this
  · intro above v found
    have := above (by simp [found])
    rw [Int64.lt_iff_toInt_lt,GetBlockValue_amount nHeight nFees plain,← Cash.amount_of_lookup found,amounts]
    exact this

end CBlock

/-! No other check fails with the text of the reward check. -/

namespace CTransaction

private theorem spendInputs_error {inputs : CCoinsViewCache} {vin : List CTxIn} {e : Reject}
    (failed : spendInputs inputs vin = .error e) : ∃ condition, e = .asserts condition := by
  induction vin generalizing inputs with
  | nil => simp [spendInputs] at failed
  | cons txin rest ih =>
    rw [spendInputs] at failed
    split at failed
    · exact ⟨_,(Except.error.inj failed).symm⟩
    split at failed
    · exact ⟨_,(Except.error.inj failed).symm⟩
    split at failed
    · next inner => exact ih (by rw [inner,Except.error.inj failed])
    · contradiction

private theorem UpdateCoins_error {tx : CTransaction} {inputs : CCoinsViewCache} {nHeight : Nat} {txhash : uint256} {e : Reject}
    (failed : tx.UpdateCoins inputs nHeight txhash = .error e) : ∃ condition, e = .asserts condition := by
  rw [UpdateCoins] at failed
  split at failed
  · next inner =>
    split at inner
    · contradiction
    · exact spendInputs_error (by rw [inner,Except.error.inj failed])
  · contradiction

private theorem GetOutputFor_error {input : CTxIn} {view : CCoinsViewCache} {e : Reject}
    (failed : GetOutputFor input view = .error e) : ∃ condition, e = .asserts condition := by
  rw [GetOutputFor] at failed
  split at failed
  · exact ⟨_,(Except.error.inj failed).symm⟩
  split at failed
  · split at failed
    · contradiction
    · exact ⟨_,(Except.error.inj failed).symm⟩
  · exact ⟨_,(Except.error.inj failed).symm⟩

private theorem countP2SH_error {inputs : CCoinsViewCache} {vin : List CTxIn} {e : Reject}
    (failed : countP2SH inputs vin = .error e) : ∃ condition, e = .asserts condition := by
  induction vin with
  | nil => simp [countP2SH] at failed
  | cons txin rest ih =>
    rw [countP2SH] at failed
    split at failed
    · next inner => exact GetOutputFor_error (by rw [inner,Except.error.inj failed])
    split at failed
    · next inner => exact ih (by rw [inner,Except.error.inj failed])
    · contradiction

private theorem GetValueIn_error {tx : CTransaction} {inputs : CCoinsViewCache} {e : Reject}
    (failed : tx.GetValueIn inputs = .error e) : ∃ condition, e = .asserts condition := by
  have loop (vin : List CTxIn) (nResult : Cash) (failed : sumIn inputs nResult vin = .error e) :
      ∃ condition, e = .asserts condition := by
    induction vin generalizing nResult with
    | nil => simp [sumIn] at failed
    | cons txin rest ih =>
      rw [sumIn] at failed
      split at failed
      · next inner => exact GetOutputFor_error (by rw [inner,Except.error.inj failed])
      · exact ih _ failed
  rw [GetValueIn] at failed
  split at failed
  · contradiction
  · exact loop _ _ failed

private theorem sumOut_error {outs : List CTxOut} {nValueOut : Cash} {e : Reject}
    (failed : sumOut nValueOut outs = .error e) : ∃ message, e = .throws message := by
  induction outs generalizing nValueOut with
  | nil => simp [sumOut] at failed
  | cons txout rest ih =>
    rw [sumOut] at failed
    split at failed
    · exact ⟨_,(Except.error.inj failed).symm⟩
    · exact ih failed

private theorem sumCheckedIn_error {inputs : CCoinsViewCache} {nSpendHeight : Int} {nValueIn : Cash} {vin : List CTxIn}
    (failed : sumCheckedIn inputs nSpendHeight nValueIn vin = .error CBlock.coinbasePaysTooMuch) : False := by
  induction vin generalizing nValueIn with
  | nil => simp [sumCheckedIn] at failed
  | cons txin rest ih =>
    rw [sumCheckedIn] at failed
    split at failed
    · simp [CBlock.coinbasePaysTooMuch] at failed
    split at failed
    · simp [CBlock.coinbasePaysTooMuch,Reject.Invalid] at failed
    split at failed
    · simp [CBlock.coinbasePaysTooMuch] at failed
    dsimp only at failed
    split at failed
    · simp [CBlock.coinbasePaysTooMuch] at failed
    · exact ih failed

private theorem runScriptChecks_error {env : Env} {checks : List CScriptCheck}
    (failed : runScriptChecks env checks = .error CBlock.coinbasePaysTooMuch) : False := by
  induction checks with
  | nil => simp [runScriptChecks] at failed
  | cons check rest ih =>
    rw [runScriptChecks] at failed
    split at failed
    · exact ih failed
    split at failed
    · simp [CBlock.coinbasePaysTooMuch,Reject.Invalid] at failed
    · simp [CBlock.coinbasePaysTooMuch] at failed

private theorem CheckInputs_error {env : Env} {tx : CTransaction} {inputs : CCoinsViewCache} {nSpendHeight : Int}
    {fScriptChecks : Bool} {flags : ScriptFlags} {pvChecks : Bool}
    (failed : tx.CheckInputs env inputs nSpendHeight fScriptChecks flags pvChecks = .error CBlock.coinbasePaysTooMuch) :
    False := by
  rw [CheckInputs] at failed
  split at failed
  · simp at failed
  split at failed
  · simp [CBlock.coinbasePaysTooMuch,Reject.Invalid] at failed
  split at failed
  · next inner => exact sumCheckedIn_error (by rw [inner,Except.error.inj failed])
  split at failed
  · next inner =>
    obtain ⟨_,text⟩ := sumOut_error inner
    rw [Except.error.inj failed] at text
    simp [CBlock.coinbasePaysTooMuch] at text
  split at failed
  · simp [CBlock.coinbasePaysTooMuch] at failed
  dsimp only at failed
  split at failed
  · simp [CBlock.coinbasePaysTooMuch] at failed
  split at failed
  · simp [CBlock.coinbasePaysTooMuch] at failed
  split at failed
  · simp at failed
  split at failed
  · simp at failed
  split at failed
  · next inner => exact runScriptChecks_error (by rw [inner,Except.error.inj failed])
  · simp at failed

end CTransaction

private theorem connectTransaction_error {env : Env} {params : ConnectParams} {s : ConnectState} {tx : CTransaction}
    (failed : connectTransaction env params s tx = .error CBlock.coinbasePaysTooMuch) : False := by
  have notAssertion {condition : String} (text : CBlock.coinbasePaysTooMuch = .asserts condition) : False := by
    contradiction
  rw [connectTransaction] at failed
  dsimp only at failed
  split at failed
  · simp [CBlock.coinbasePaysTooMuch] at failed
  split at failed
  · split at failed
    · next inner => exact notAssertion (CTransaction.UpdateCoins_error (by rw [inner,Except.error.inj failed])).choose_spec
    · contradiction
  split at failed
  · simp [CBlock.coinbasePaysTooMuch] at failed
  split at failed
  · next inner =>
    split at inner
    · rw [CTransaction.GetP2SHSigOpCount] at inner
      split at inner
      · contradiction
      · exact notAssertion (CTransaction.countP2SH_error (by rw [inner,Except.error.inj failed])).choose_spec
    · contradiction
  split at failed
  · simp [CBlock.coinbasePaysTooMuch] at failed
  split at failed
  · next inner => exact notAssertion (CTransaction.GetValueIn_error (by rw [inner,Except.error.inj failed])).choose_spec
  split at failed
  · next inner =>
    obtain ⟨_,text⟩ := CTransaction.sumOut_error inner
    rw [Except.error.inj failed] at text
    contradiction
  split at failed
  · next inner => exact CTransaction.CheckInputs_error (by rw [inner,Except.error.inj failed])
  split at failed
  · next inner => exact notAssertion (CTransaction.UpdateCoins_error (by rw [inner,Except.error.inj failed])).choose_spec
  · contradiction

namespace CBlock

private theorem connectTransactions_error {env : Env} {params : ConnectParams} {s : ConnectState} {txs : List CTransaction}
    (failed : connectTransactions env params s txs = .error coinbasePaysTooMuch) : False := by
  induction txs generalizing s with
  | nil => simp [connectTransactions] at failed
  | cons tx rest ih =>
    rw [connectTransactions] at failed
    split at failed
    · next inner => exact connectTransaction_error (by rw [inner,Except.error.inj failed])
    · exact ih failed

private theorem CheckBlock_error {env : Env} {ambient : Ambient} {block : CBlock} {fCheckMerkleRoot : Bool}
    (failed : block.CheckBlock env ambient fCheckMerkleRoot = .error coinbasePaysTooMuch) : False := by
  have loop (txs : List CTransaction) (failed : checkTransactions txs = .error coinbasePaysTooMuch) : False := by
    induction txs with
    | nil => simp [checkTransactions] at failed
    | cons tx rest ih =>
      rw [checkTransactions] at failed
      split at failed
      · simp [coinbasePaysTooMuch] at failed
      · exact ih failed
  rw [CheckBlock] at failed
  split at failed
  · simp [coinbasePaysTooMuch] at failed
  split at failed
  · simp [coinbasePaysTooMuch,Reject.Invalid] at failed
  split at failed
  · simp [coinbasePaysTooMuch] at failed
  split at failed
  · simp [coinbasePaysTooMuch] at failed
  split at failed
  · next inner => exact loop _ (by rw [inner,Except.error.inj failed])
  split at failed
  · simp [coinbasePaysTooMuch] at failed
  split at failed
  · simp [coinbasePaysTooMuch] at failed
  split at failed
  · simp [coinbasePaysTooMuch] at failed
  · contradiction

private theorem recordBlock_error {disk : DiskWrites} {pindex : CBlockIndex} {view : CCoinsViewCache} {blockundo : CBlockUndo}
    (failed : (recordBlock disk pindex view blockundo).result = .error coinbasePaysTooMuch) : False := by
  rw [recordBlock] at failed
  dsimp only at failed
  split_ifs at failed <;> simp [coinbasePaysTooMuch] at failed

/-- A block whose checks before the reward pass fails or not as the reward, the
    script queue and the writes decide. -/
theorem ConnectBlock_of_reachesReward {env : Env} {ambient : Ambient} (disk : DiskWrites) {block : CBlock}
    {pindex : CBlockIndex} {view : CCoinsViewCache} {fJustCheck : Bool} {s : ConnectState}
    (notGenesis : block.GetHash env ≠ hashGenesisBlock)
    (reaches : ReachesReward env ambient block pindex view fJustCheck s) :
    (block.ConnectBlock env ambient disk pindex view fJustCheck).result =
      match block.checkReward env pindex.nHeight s with
      | .error e => .error e
      | .ok () => if fJustCheck then .ok s.view else (recordBlock disk pindex s.view ⟨s.vtxundo⟩).result := by
  rw [ConnectBlock,ConnectTransactions,reaches.checked]
  simp only [reaches.onTip,ne_eq,not_true_eq_false,if_false,notGenesis,reaches.fresh,Bool.false_eq_true,reaches.connected]
  cases block.checkReward env pindex.nHeight s with
  | error e => rfl
  | ok _ => cases fJustCheck <;> simp

/-- Only a block that reaches the reward check is accepted, or rejected by it. -/
theorem reachesReward_of_result {env : Env} {ambient : Ambient} {disk : DiskWrites} {block : CBlock}
    {pindex : CBlockIndex} {view : CCoinsViewCache} {fJustCheck : Bool}
    (notGenesis : block.GetHash env ≠ hashGenesisBlock)
    (result : (∃ after, (block.ConnectBlock env ambient disk pindex view fJustCheck).result = .ok after) ∨
      (block.ConnectBlock env ambient disk pindex view fJustCheck).result = .error coinbasePaysTooMuch) :
    ∃ s, ReachesReward env ambient block pindex view fJustCheck s := by
  rw [ConnectBlock,ConnectTransactions] at result
  cases checked : block.CheckBlock env ambient (!fJustCheck) with
  | error e =>
    simp only [checked,reduceCtorEq,exists_false,Except.error.injEq,false_or] at result
    exact (CheckBlock_error (by rw [checked,result])).elim
  | ok _ =>
    by_cases onTip : pindex.pprev = view.GetBestBlock
    · by_cases fresh : block.overwrites env view = true
      · simp [checked,onTip,notGenesis,fresh,coinbasePaysTooMuch] at result
      · cases connected : connectTransactions env (connectParams ambient pindex) {view := view} block.vtx with
        | error e =>
          simp [checked,onTip,notGenesis,fresh,connected] at result
          exact (connectTransactions_error (by rw [connected,result])).elim
        | ok s => exact ⟨s,checked,onTip,by simpa using fresh,connected⟩
    · simp [checked,onTip,coinbasePaysTooMuch] at result

/-- At the reward check, the decision of `ConnectBlock` is `OverIssue`. -/
theorem checkReward_iff {env : Env} {ambient : Ambient} {block : CBlock} {pindex : CBlockIndex} {view : CCoinsViewCache}
    {fJustCheck : Bool} {s : ConnectState} (reaches : ReachesReward env ambient block pindex view fJustCheck s)
    (untrusted : srges.CheckPbk block.cpbk = false) :
    (block.checkReward env pindex.nHeight s = .error coinbasePaysTooMuch ↔ block.OverIssue pindex.nHeight) ∧
      (block.checkReward env pindex.nHeight s = .ok () ↔
        ¬block.OverIssue pindex.nHeight ∧ s.vChecks.all (CScriptCheck.run env) = true) := by
  obtain ⟨⟨coinbase,rest,listed,_,_⟩,checked,_⟩ := CheckBlock_ok reaches.checked
  have first := checked coinbase (by simp [listed])
  obtain ⟨_,_,_,⟨sum,outputsChecked⟩,_,_⟩ := CTransaction.CheckTransaction_ok coinbase first
  have summed : coinbase.GetValueOut = .ok sum := CTransaction.GetValueOut_of_checkOutputs _ _ _ outputsChecked
  have plain : s.nFees.locals = ∅ := connectTransactions_nFees reaches.connected
  have decides := gt_GetBlockValue_iff listed first summed pindex.nHeight s.nFees plain
  have paid : block.coinbaseOut = .ok sum := by rw [coinbaseOut,listed]; exact summed
  rw [checkReward,paid]
  dsimp only
  rw [untrusted,Bool.not_false,Bool.and_true]
  by_cases exceeds : block.OverIssue pindex.nHeight
  · simp [decides.mpr exceeds,exceeds,coinbasePaysTooMuch]
  · have fine : sum.gt (GetBlockValue pindex.nHeight s.nFees) = false := by simpa [exceeds] using decides
    by_cases scripts : s.vChecks.all (CScriptCheck.run env) = true
    · simp [fine,exceeds,scripts]
    · simp [fine,exceeds,scripts,coinbasePaysTooMuch]

private theorem checkReward_trusted {env : Env} {ambient : Ambient} {block : CBlock} {pindex : CBlockIndex}
    {view : CCoinsViewCache} {fJustCheck : Bool} {s : ConnectState} {disk : DiskWrites}
    (reaches : ReachesReward env ambient block pindex view fJustCheck s) (trusted : srges.CheckPbk block.cpbk = true)
    (rejected : (.error coinbasePaysTooMuch : Except Reject CCoinsViewCache) =
      match block.checkReward env pindex.nHeight s with
      | .error e => .error e
      | .ok () => if fJustCheck then .ok s.view else (recordBlock disk pindex s.view ⟨s.vtxundo⟩).result) : False := by
  obtain ⟨⟨coinbase,rest,listed,_,_⟩,checked,_⟩ := CheckBlock_ok reaches.checked
  obtain ⟨_,_,_,⟨sum,outputsChecked⟩,_,_⟩ := CTransaction.CheckTransaction_ok coinbase (checked coinbase (by simp [listed]))
  have paid : block.coinbaseOut = .ok sum := by
    rw [coinbaseOut,listed]
    exact CTransaction.GetValueOut_of_checkOutputs _ _ _ outputsChecked
  rw [checkReward,paid,trusted] at rejected
  simp only [Bool.not_true,Bool.and_false,Bool.false_eq_true,if_false] at rejected
  by_cases scripts : s.vChecks.all (CScriptCheck.run env) = true
  · simp only [scripts,Bool.true_eq_false,if_false] at rejected
    split at rejected
    · contradiction
    · exact recordBlock_error rejected.symm
  · simp [scripts,coinbasePaysTooMuch] at rejected

/-- `ConnectBlock` holds untrusted coinbases to the issue plus the fees in every
    circuit exactly when being over the issue in all listed circuits coincides with
    being over the allowance in some circuit. -/
theorem ConnectBlock_coinbase_limit_iff (env : Env) (ambient : Ambient) (disk : DiskWrites) (block : CBlock)
    (pindex : CBlockIndex) (view : CCoinsViewCache) (fJustCheck : Bool)
    (notGenesis : block.GetHash env ≠ hashGenesisBlock) :
    ((∀ after, (block.ConnectBlock env ambient disk pindex view fJustCheck).result = .ok after →
        srges.CheckPbk block.cpbk = false → ∀ c, block.coinbasePays c ≤ block.allowance env pindex.nHeight view c) ∧
      ((∀ c, block.coinbasePays c ≤ block.allowance env pindex.nHeight view c) →
        (block.ConnectBlock env ambient disk pindex view fJustCheck).result ≠ .error coinbasePaysTooMuch)) ↔
    ∀ s, ReachesReward env ambient block pindex view fJustCheck s → srges.CheckPbk block.cpbk = false →
      (block.OverIssue pindex.nHeight → ∃ c, block.allowance env pindex.nHeight view c < block.coinbasePays c) ∧
      ((∃ c, block.allowance env pindex.nHeight view c < block.coinbasePays c) →
        RestPasses env disk pindex fJustCheck s → block.OverIssue pindex.nHeight) := by
  constructor
  · rintro ⟨bounded,notRejected⟩ s reaches untrusted
    have outcome := ConnectBlock_of_reachesReward disk notGenesis reaches
    obtain ⟨rejects,accepts⟩ := checkReward_iff reaches untrusted
    constructor
    · intro exceeds
      by_contra within
      push Not at within
      rw [rejects.mpr exceeds] at outcome
      exact notRejected within outcome
    · rintro ⟨c,above⟩ ⟨scripts,writes⟩
      by_contra fine
      rw [accepts.mpr ⟨fine,scripts⟩] at outcome
      have accepted : ∃ after, (block.ConnectBlock env ambient disk pindex view fJustCheck).result = .ok after := by
        rw [outcome]
        cases fJustCheck with
        | true => exact ⟨s.view,rfl⟩
        | false => exact writes rfl
      obtain ⟨after,accepted⟩ := accepted
      have := bounded after accepted untrusted c
      omega
  · intro condition
    constructor
    · intro after accepted untrusted
      obtain ⟨s,reaches⟩ := reachesReward_of_result notGenesis (Or.inl ⟨after,accepted⟩)
      have outcome := ConnectBlock_of_reachesReward disk notGenesis reaches
      obtain ⟨rejects,accepts⟩ := checkReward_iff reaches untrusted
      by_contra above
      push Not at above
      rw [accepted] at outcome
      cases reward : block.checkReward env pindex.nHeight s with
      | error e => simp [reward] at outcome
      | ok _ =>
        obtain ⟨fine,scripts⟩ := accepts.mp reward
        refine fine ((condition s reaches untrusted).2 above ⟨scripts,fun notJust => ⟨after,?_⟩⟩)
        simpa [reward,notJust] using outcome.symm
    · intro within rejected
      obtain ⟨s,reaches⟩ := reachesReward_of_result notGenesis (Or.inr rejected)
      have outcome := ConnectBlock_of_reachesReward disk notGenesis reaches
      rw [rejected] at outcome
      by_cases trusted : srges.CheckPbk block.cpbk = true
      · exact checkReward_trusted reaches trusted outcome
      · have untrusted : srges.CheckPbk block.cpbk = false := by simpa using trusted
        obtain ⟨rejects,accepts⟩ := checkReward_iff reaches untrusted
        cases reward : block.checkReward env pindex.nHeight s with
        | error e =>
          obtain rfl : coinbasePaysTooMuch = e := by simpa [reward] using outcome
          obtain ⟨c,above⟩ := (condition s reaches untrusted).1 (rejects.mp reward)
          have := within c
          omega
        | ok _ =>
          rw [reward] at outcome
          dsimp only at outcome
          split at outcome
          · contradiction
          · exact recordBlock_error outcome.symm

/-! A block at height 5, where nothing is issued: its coinbase claims a million of
circuit A and lists circuit B with nothing in it. -/

private def rewardEnv : Env :=
  ⟨fun tx => tx.nLockTime,fun header => header.nTime,fun left right => left+right,fun _ _ _ _ _ => true,fun _ _ _ => true⟩
private def rewardCoinbase : CTransaction :=
  ⟨2,[⟨⟨0,nullIndex⟩,[1,5],nullIndex⟩],[⟨⟨((∅ : CashStruct).insert [0x41] 1000000).insert [0x42] 0,0⟩,[]⟩],10,[]⟩
private def rewardSpend : CTransaction := ⟨2,[⟨⟨7,0⟩,[],nullIndex⟩],[⟨Cash.ofMoney ([0x45],5),[]⟩],11,[]⟩
private def rewardBlock : CBlock := ⟨⟨3,1,21,100⟩,[rewardCoinbase,rewardSpend],[],[]⟩
private def rewardIndex : CBlockIndex :=
  {hashBlock := 100,pprev := some 1,nHeight := 5,nVersion := 3,hashMerkleRoot := 21,nTime := 100}
private def rewardView : CCoinsViewCache where
  base := ⟨fun _ => none,none⟩
  cacheCoins := (∅ : ExtTreeMap uint256 CCoins).insert 7 {vout := [⟨Cash.ofMoney ([0x45],5),[]⟩],nHeight := 4,nVersion := 2}
  pindexTip := some 1

private theorem exists_ok {α : Type} {result : Except Reject α} (ok : result.isOk = true) : ∃ a, result = .ok a := by
  cases result with
  | error e => contradiction
  | ok a => exact ⟨a,rfl⟩

theorem ConnectBlock_coinbase_overpays :
    (∃ after, (rewardBlock.ConnectBlock rewardEnv ⟨1000,0⟩ {} rewardIndex rewardView false).result = .ok after) ∧
      srges.CheckPbk rewardBlock.cpbk = false ∧
      rewardBlock.allowance rewardEnv rewardIndex.nHeight rewardView [0x41] < rewardBlock.coinbasePays [0x41] :=
  ⟨exists_ok (by decide +kernel),by decide,by decide +kernel⟩

theorem ConnectBlock_coinbase_limit_iff_sample :
    ((∀ after, (rewardBlock.ConnectBlock rewardEnv ⟨1000,0⟩ {} rewardIndex rewardView false).result = .ok after →
        srges.CheckPbk rewardBlock.cpbk = false → ∀ c, rewardBlock.coinbasePays c ≤ rewardBlock.allowance rewardEnv 5 rewardView c) ∧
      ((∀ c, rewardBlock.coinbasePays c ≤ rewardBlock.allowance rewardEnv 5 rewardView c) →
        (rewardBlock.ConnectBlock rewardEnv ⟨1000,0⟩ {} rewardIndex rewardView false).result ≠ .error coinbasePaysTooMuch)) ↔
    ∀ s, ReachesReward rewardEnv ⟨1000,0⟩ rewardBlock rewardIndex rewardView false s → srges.CheckPbk rewardBlock.cpbk = false →
      (rewardBlock.OverIssue 5 → ∃ c, rewardBlock.allowance rewardEnv 5 rewardView c < rewardBlock.coinbasePays c) ∧
      ((∃ c, rewardBlock.allowance rewardEnv 5 rewardView c < rewardBlock.coinbasePays c) →
        RestPasses rewardEnv {} rewardIndex false s → rewardBlock.OverIssue 5) :=
  ConnectBlock_coinbase_limit_iff rewardEnv ⟨1000,0⟩ {} rewardBlock rewardIndex rewardView false (by decide +kernel)

end CBlock
end Tetra
