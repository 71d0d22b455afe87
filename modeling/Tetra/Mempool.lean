import Mathlib
import Tetra.CoinsCache

/-!
The memory pool: fees asked of a transaction, standard transactions, and what
`CTxMemPool::accept` checks before a transaction goes in.
-/
namespace Tetra
open Std

/-- `x * k`, circuit by circuit. -/
def Cash.mulAmount (x : Cash) (k : Amount) : Cash := ⟨x.locals.map fun _ v => (0+v)*k,x.fixed*k⟩

inductive GetMinFee_mode
  | GMF_BLOCK | GMF_RELAY | GMF_SEND
deriving DecidableEq

def DEFAULT_BLOCK_PRIORITY_SIZE : Nat := 17000
def MAX_BLOCK_SIZE_GEN : Nat := MAX_BLOCK_SIZE/4
def MAX_STANDARD_TX_SIZE : Nat := 100000
def MAX_TX_ATTACHMENTS_LEN : Nat := 75*1024
def DUST_SOFT_LIMIT : Amount := 0
def LOCKTIME_THRESHOLD : Nat := 500000000

/-- Settings of the node, and what it computes about scripts alone. -/
structure PoolRules where
  env : Env
  fTestNet : Bool := false
  nMinTxFee : Cash := Cash.assignAmount 0
  nMinRelayTxFee : Cash := Cash.assignAmount 0
  IsPushOnly : CScript → Bool
  HasCanonicalPushes : CScript → Bool
  /-- `::IsStandard(scriptPubKey)` -/
  IsStandard : CScript → Bool
  /-- The part of `AreInputsStandard` that looks at one input and the output it spends. -/
  IsInputStandard : CTransaction → Nat → CTxOut → Bool

/-- The active chain as the pool sees it. -/
structure ActiveChain where
  pcoinsTip : CCoinsViewCache
  nBestHeight : Int
  /-- The height of the best block of `pcoinsTip`. -/
  nTipHeight : Int := nBestHeight

/-- What changes from one call of `accept` to the next without the node's doing: the
    clock, and whether the limit on free transactions is used up. -/
structure Moment where
  GetAdjustedTime : Int
  rateLimited : Bool := false

namespace CTransaction
open GetMinFee_mode

def CURRENT_VERSION : Int := 2

/-- `sizeof` of a vector, whatever it holds. -/
def sizeofAttachments : Nat := 24

def GetMinFee (rules : PoolRules) (tx : CTransaction) (nBlockSize : Nat) (fAllowFree : Bool) (mode : GetMinFee_mode) : Cash :=
  let nBaseFee := if mode = GMF_RELAY then rules.nMinRelayTxFee else rules.nMinTxFee
  let nBytes := tx.GetSerializeSize
  let nNewBlockSize := (nBlockSize+nBytes)%2^32
  let nMinFee := nBaseFee.mulAmount (Int64.ofNat (1+nBytes/1000))
  let nMinFee := if fAllowFree ∧ nBytes < (if mode = GMF_SEND then 5000 else DEFAULT_BLOCK_PRIORITY_SIZE-1000) then
    Cash.assignAmount 0 else nMinFee
  let nMinFee := tx.vout.foldl (fun nMinFee txout =>
    if txout.nValue.ltAmount DUST_SOFT_LIMIT then nMinFee.addAssign nBaseFee else nMinFee) nMinFee
  let inRange (nMinFee : Cash) := if MoneyRange nMinFee then nMinFee else Cash.assignAmount MAX_MONEY
  if nBlockSize ≠ 1 ∧ nNewBlockSize ≥ MAX_BLOCK_SIZE_GEN/2 then
    if nNewBlockSize ≥ MAX_BLOCK_SIZE_GEN then Cash.ofAmount MAX_MONEY
    else inRange (nMinFee.mulAmount (Int64.ofNat (MAX_BLOCK_SIZE_GEN/(MAX_BLOCK_SIZE_GEN-nNewBlockSize))))
  else inRange nMinFee

/-- `IsFinal()` with no arguments. -/
def IsFinal (chain : ActiveChain) (now : Moment) (tx : CTransaction) : Bool :=
  if tx.nLockTime = 0 then true
  else if (tx.nLockTime : Int) < (if tx.nLockTime < LOCKTIME_THRESHOLD then chain.nBestHeight else now.GetAdjustedTime) then true
  else tx.vin.all fun txin => txin.nSequence == 0xFFFFFFFF

/-- `IsStandard`; the error is `strReason`. -/
def IsStandard (rules : PoolRules) (chain : ActiveChain) (now : Moment) (tx : CTransaction) : Except String Unit :=
  if tx.nVersion > CURRENT_VERSION ∨ tx.nVersion < 1 then .error "version"
  else if sizeofAttachments > MAX_TX_ATTACHMENTS_LEN then .error ""
  else if tx.IsFinal chain now = false then .error "not-final"
  else if tx.GetSerializeSize ≥ MAX_STANDARD_TX_SIZE then .error "tx-size"
  else
    let checkInput (txin : CTxIn) : Except String Unit :=
      if txin.scriptSig.length > 500 then .error "scriptsig-size"
      else if rules.IsPushOnly txin.scriptSig = false then .error "scriptsig-not-pushonly"
      else if rules.HasCanonicalPushes txin.scriptSig = false then .error "non-canonical-push"
      else .ok ()
    match tx.vin.forM checkInput with
    | .error strReason => .error strReason
    | .ok () => if tx.vout.all fun txout => rules.IsStandard txout.scriptPubKey then .ok () else .error "scriptpubkey"

def AreInputsStandard (rules : PoolRules) (tx : CTransaction) (mapInputs : CCoinsViewCache) : Bool :=
  if tx.IsCoinBase then true
  else tx.vin.zipIdx.all fun (txin,i) =>
    match GetOutputFor txin mapInputs with
    | .error _ => false
    | .ok prev => rules.IsInputStandard tx i prev

end CTransaction

/-- An entry of `mapNextTx` names the transaction that spends an output, and the input. -/
structure CTxMemPool where
  mapTx : ExtTreeMap uint256 CTransaction := ∅
  mapNextTx : ExtTreeMap COutPoint (uint256 × Nat) := ∅

/-- How `accept` returns; on an error the pool is as it was. -/
structure AcceptOutcome where
  result : Except Reject Unit
  fMissingInputs : Bool := false
  mempool : CTxMemPool

namespace CTxMemPool

def addUnchecked (pool : CTxMemPool) (hash : uint256) (tx : CTransaction) : CTxMemPool where
  mapTx := pool.mapTx.insert hash tx
  mapNextTx := tx.vin.zipIdx.foldl (fun mapNextTx (txin,i) => mapNextTx.insert txin.prevout (hash,i)) pool.mapNextTx

/-- The view `accept` looks at: a cache over the pool over `pcoinsTip`. -/
def view (pool : CTxMemPool) (pcoinsTip : CCoinsViewCache) : CCoinsViewCache where
  base := {
    GetCoins := fun txid => (pcoinsTip.GetCoins txid).or ((pool.mapTx[txid]?).map fun tx => CCoins.ofTransaction tx MEMPOOL_HEIGHT)
    GetBestBlock := pcoinsTip.GetBestBlock}

/-- The fees and scripts of a transaction whose inputs are all there. -/
def checkFees (rules : PoolRules) (chain : ActiveChain) (now : Moment) (tx : CTransaction) (view : CCoinsViewCache) (fLimitFree fRejectInsaneFee : Bool) :
    Except Reject Unit :=
  if tx.AreInputsStandard rules view = false ∧ rules.fTestNet = false then
    .error (.plain "CTxMemPool::accept() : nonstandard transaction input")
  else
    match tx.GetValueIn view with
    | .error e => .error e
    | .ok nValueIn =>
      match tx.GetValueOut with
      | .error e => .error e
      | .ok nValueOut =>
        let nFees := nValueIn.sub nValueOut
        if fLimitFree ∧ nFees.lt (tx.GetMinFee rules 1000 true .GMF_RELAY) then
          .error (.plain "CTxMemPool::accept() : not enough fees %s, %s < %s")
        else if fLimitFree ∧ nFees.lt rules.nMinRelayTxFee ∧ now.rateLimited then
          .error (.plain "CTxMemPool::accept() : free transaction rejected by rate limiter")
        else if fRejectInsaneFee ∧ nFees.gt (rules.nMinRelayTxFee.mulAmount 1000) then
          .error (.plain "CTxMemPool::accept() : insane fees %s, %s > %s")
        else
          match tx.CheckInputs rules.env view (chain.nTipHeight+1) true {P2SH := true,STRICTENC := true} false with
          | .error e => .error (.within "CTxMemPool::accept() : ConnectInputs failed %s" e)
          | .ok _ => .ok ()

/-- The checks before the pool is looked at. -/
def checkAlone (rules : PoolRules) (chain : ActiveChain) (now : Moment) (tx : CTransaction) : Except Reject Unit :=
  match tx.CheckTransaction with
  | .error e => .error (.within "CTxMemPool::accept() : CheckTransaction failed" e)
  | .ok () =>
    if tx.IsCoinBase then .error (.DoS 100 false "CTxMemPool::accept() : coinbase as individual tx")
    else if tx.nLockTime > 0x7FFFFFFF then .error (.plain "CTxMemPool::accept() : not accepting nLockTime beyond 2038 yet")
    else if rules.fTestNet then .ok ()
    else
      match tx.IsStandard rules chain now with
      | .error _ => .error (.plain "CTxMemPool::accept() : nonstandard transaction (%s)")
      | .ok () => .ok ()

def accept (rules : PoolRules) (chain : ActiveChain) (now : Moment) (pool : CTxMemPool) (tx : CTransaction) (fCheckInputs fLimitFree : Bool)
    (fRejectInsaneFee : Bool := false) : AcceptOutcome :=
  let hash := rules.env.TxHash tx
  let view := pool.view chain.pcoinsTip
  match checkAlone rules chain now tx with
  | .error e => {result := .error e,mempool := pool}
  | .ok () =>
    if hash ∈ pool.mapTx then {result := .error (.plain ""),mempool := pool}
    -- A conflict always refuses the transaction; replacing the older one is switched off.
    else if tx.vin.any fun txin => decide (txin.prevout ∈ pool.mapNextTx) then {result := .error (.plain ""),mempool := pool}
    else if fCheckInputs = false then {result := .ok (),mempool := pool.addUnchecked hash tx}
    else if view.HaveCoins hash then {result := .error (.plain ""),mempool := pool}
    else if (tx.vin.all fun txin => view.HaveCoins txin.prevout.hash) = false then
      {result := .error (.plain ""),fMissingInputs := true,mempool := pool}
    else if tx.HaveInputs view = false then {result := .error (.Invalid "CTxMemPool::accept() : inputs already spent"),mempool := pool}
    else
      match checkFees rules chain now tx view fLimitFree fRejectInsaneFee with
      | .error e => {result := .error e,mempool := pool}
      | .ok () => {result := .ok (),mempool := pool.addUnchecked hash tx}

/-- `AcceptToMemoryPool`: an exception becomes an error of the state. -/
def AcceptToMemoryPool (rules : PoolRules) (chain : ActiveChain) (now : Moment) (pool : CTxMemPool) (tx : CTransaction) (fCheckInputs fLimitFree : Bool)
    (fRejectInsaneFee : Bool := false) : AcceptOutcome :=
  let outcome := pool.accept rules chain now tx fCheckInputs fLimitFree fRejectInsaneFee
  match outcome.result with
  | .error (.throws message) => {outcome with result := .error (.Error ("System error: "++message))}
  | _ => outcome

/-- What `accept` found out about a transaction that it let in. -/
structure Admitted (rules : PoolRules) (chain : ActiveChain) (now : Moment) (pool : CTxMemPool) (tx : CTransaction) : Prop where
  alone : checkAlone rules chain now tx = .ok ()
  fresh : rules.env.TxHash tx ∉ pool.mapTx
  unknown : (pool.view chain.pcoinsTip).HaveCoins (rules.env.TxHash tx) = false
  free : ∀ txin ∈ tx.vin, txin.prevout ∉ pool.mapNextTx
  inputs : ∀ txin ∈ tx.vin, (pool.view chain.pcoinsTip).HaveCoins txin.prevout.hash = true

/-- Either a transaction goes in, or the pool stays as it was; what is in the pool
    already does not count as missing inputs. -/
theorem accept_cases (rules : PoolRules) (chain : ActiveChain) (now : Moment) (pool : CTxMemPool) (tx : CTransaction) (fLimitFree insane : Bool) :
    (pool.accept rules chain now tx true fLimitFree insane = {result := .ok (),mempool := pool.addUnchecked (rules.env.TxHash tx) tx} ∧
      Admitted rules chain now pool tx) ∨
    ∃ e fMissingInputs, pool.accept rules chain now tx true fLimitFree insane =
      {result := .error e,fMissingInputs := fMissingInputs,mempool := pool} ∧
      (rules.env.TxHash tx ∈ pool.mapTx → fMissingInputs = false) := by
  unfold accept
  dsimp only
  split
  · exact .inr ⟨_,_,rfl,fun _ => rfl⟩
  next alone =>
    split
    · exact .inr ⟨_,_,rfl,fun _ => rfl⟩
    next fresh =>
      split
      · exact .inr ⟨_,_,rfl,fun _ => rfl⟩
      next free =>
        rw [if_neg (by simp)]
        split
        · exact .inr ⟨_,_,rfl,fun _ => rfl⟩
        next unknown =>
          split
          · exact .inr ⟨_,_,rfl,fun known => absurd known fresh⟩
          next inputs =>
            split
            · exact .inr ⟨_,_,rfl,fun _ => rfl⟩
            split
            · exact .inr ⟨_,_,rfl,fun _ => rfl⟩
            · exact .inl ⟨rfl,alone,fresh,by simpa using unknown,by simpa using free,by simpa using inputs⟩

theorem AcceptToMemoryPool_cases (rules : PoolRules) (chain : ActiveChain) (now : Moment) (pool : CTxMemPool) (tx : CTransaction)
    (fLimitFree insane : Bool) :
    (pool.AcceptToMemoryPool rules chain now tx true fLimitFree insane =
        {result := .ok (),mempool := pool.addUnchecked (rules.env.TxHash tx) tx} ∧ Admitted rules chain now pool tx) ∨
    ∃ e fMissingInputs, pool.AcceptToMemoryPool rules chain now tx true fLimitFree insane =
      {result := .error e,fMissingInputs := fMissingInputs,mempool := pool} ∧
      (rules.env.TxHash tx ∈ pool.mapTx → fMissingInputs = false) := by
  unfold AcceptToMemoryPool
  rcases accept_cases rules chain now pool tx fLimitFree insane with ⟨outcome,admitted⟩ | ⟨e,missing,outcome,known⟩
  · exact .inl ⟨by rw [outcome],admitted⟩
  · refine .inr ?_
    rw [outcome]
    cases e with
    | throws message => exact ⟨_,missing,rfl,known⟩
    | _ => exact ⟨_,missing,rfl,known⟩

@[simp] theorem addUnchecked_mapTx (pool : CTxMemPool) (hash : uint256) (tx : CTransaction) :
    (pool.addUnchecked hash tx).mapTx = pool.mapTx.insert hash tx := rfl

/-- A transaction that is in the pool is turned down, and its inputs are not missed. -/
theorem AcceptToMemoryPool_known (rules : PoolRules) (chain : ActiveChain) (now : Moment) {pool : CTxMemPool} {tx : CTransaction}
    (known : rules.env.TxHash tx ∈ pool.mapTx) (fLimitFree : Bool) :
    ∃ e, pool.AcceptToMemoryPool rules chain now tx true fLimitFree = {result := .error e,mempool := pool} := by
  rcases AcceptToMemoryPool_cases rules chain now pool tx fLimitFree false with ⟨_,admitted⟩ | ⟨e,missing,outcome,notMissing⟩
  · exact absurd known admitted.fresh
  · exact ⟨e,by rw [outcome,notMissing known]⟩

end CTxMemPool
end Tetra
