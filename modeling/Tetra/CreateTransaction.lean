import Mathlib
import Tetra.CashLaws
import Tetra.Double
import Tetra.Mempool
import Tetra.Payment
import Tetra.Retry

/-!
`CreateTransaction`: the loop that chooses coins for the payees and the fee, gives
itself the change, signs, and starts again with a higher fee when the fee is too low for
the size. What is known of the transaction that comes out is compared with what the
coins it spends are worth.
-/
namespace Tetra
open Std

namespace Fees

/-- `operator int64` -/
def toAmount (x : Fees) : Amount := x.fixed
/-- `x < y` -/
def lt (x y : Fees) : Bool := decide (x.fixed < y.fixed) || Cash.lt x y
/-- Assignment from an integer leaves the circuits. -/
def assignAmount (x : Fees) (y : Amount) : Fees := ⟨x.locals,y⟩

end Fees

/-- `min(a, b)` -/
def Cash.min (a b : Cash) : Cash := if b.lt a then b else a

/-- `IsDust` is switched off. -/
def CTxOut.IsDust (_ : CTxOut) : Bool := false

/-- `AllowFree`, with `CENT * 10` as a double. -/
def CTransaction.AllowFree (dPriority : ℚ) : Bool := decide (dPriority > 10)

/-- The settings of the fees. They are only ever set from integers. -/
structure FeeRules where
  rules : PoolRules
  nTransactionFee : Fees := {}
  noCircuits : nTransactionFee.locals = ∅ ∧ rules.nMinTxFee.locals = ∅

/-- The arguments of `CreateTransaction`; `destChange` is the script for the destination
    that `coinControl` sets for the change, if it sets one. -/
structure PaymentCall where
  vecSend : List (CScript × Cash)
  wtxNew : CTransaction
  coinControl : Option CCoinControl := none
  destChange : Option CScript := none
  Attachments : List UInt8 := []

/-- What one turn of the loop meets that its inputs do not determine. -/
structure Draw where
  chances : Fin 3 → Chance
  /-- The elements of `setCoins`, in the order of their addresses. -/
  setOrder : Finset COutPoint → List COutPoint
  GetRandInt : Nat → Nat
  /-- The script of the key from the pool; none if the pool is empty. -/
  GetReservedKey : Option CScript
  /-- What `SignSignature` puts into an input, if it can sign. -/
  SignSignature : CTransaction → Nat → Option CScript

structure Draw.Fair (draw : Draw) : Prop where
  chances : ∀ i, (draw.chances i).Fair
  setOrder : ∀ setCoins, (draw.setOrder setCoins).Nodup ∧ ∀ coin, coin ∈ draw.setOrder setCoins ↔ coin ∈ setCoins
  GetRandInt : ∀ n, draw.GetRandInt (n+1) ≤ n

/-- How `CreateTransaction` ends. -/
inductive Creation
  | created (wtxNew : CTransaction) (nFeeRet : Fees)
  | fails (strFailReason : String)
  /-- The assertion that the pool has a key fails. -/
  | asserts

namespace CWallet

/-- `pcoin.first->vout[pcoin.second].nValue` -/
def nCredit (wallet : CWallet) (pcoin : COutPoint) : Cash :=
  (((wallet.mapWallet[pcoin.hash]?).bind fun tx => tx.vout[pcoin.n]?).getD CTxOut.null).nValue

/-- The sum of amount times depth over the coins, as a double. -/
def dPriority (wallet : CWallet) (coins : List COutPoint) : ℚ :=
  coins.foldl (fun dPriority pcoin =>
    let nDepth := ((wallet.mapWallet[pcoin.hash]?).map CWalletTx.GetDepthInMainChain).getD 0
    Double.round (dPriority+Double.round ((wallet.nCredit pcoin).Max*Int64.ofInt (nDepth+1)).toInt)) 0

/-- Whether the priority of a finished transaction allows it to be free. -/
def allowsFree (wallet : CWallet) (wtxNew : CTransaction) : Bool :=
  CTransaction.AllowFree (Double.round (wallet.dPriority (wtxNew.vin.map CTxIn.prevout)/wtxNew.GetSerializeSize))

end CWallet

/-- The loop over the payees; it gives up when the sum so far is negative somewhere. -/
def sumSend (nValue : Cash) : List (CScript × Cash) → Option Cash
  | [] => if nValue.ltAmount 0 then none else some nValue
  | s :: rest => if nValue.ltAmount 0 then none else sumSend (nValue.addAssign s.2) rest

/-- A change of less than a cent goes into the fee. -/
def moveToFee (nMinTxFee nChange : Cash) (nFeeRet : Fees) : Cash × Fees :=
  if Fees.lt nFeeRet nMinTxFee && nChange.gtAmount 0 && nChange.ltAmount CENT then
    let nMoveToFee : Fees := nChange.min (nMinTxFee.subFees nFeeRet)
    (nChange.subFees nMoveToFee,Fees.addAssign nFeeRet nMoveToFee)
  else (nChange,nFeeRet)

/-- The output for the change, at a random place; none if there is no key for it. -/
def addChange (draw : Draw) (destChange : Option CScript) (vout : List CTxOut) (nChange : Cash) (nFeeRet : Fees) :
    Option (List CTxOut × Fees) :=
  if nChange.gtAmount 0 then
    match destChange.or draw.GetReservedKey with
    | none => none
    | some scriptChange =>
      let newTxOut : CTxOut := ⟨nChange,scriptChange⟩
      if newTxOut.IsDust then some (vout,Fees.addAssign nFeeRet nChange)
      else some (vout.insertIdx (draw.GetRandInt (vout.length+1)) newTxOut,nFeeRet)
  else some (vout,nFeeRet)

/-- The loop that signs the inputs from `nIn` on. -/
def signInputs (SignSignature : CTransaction → Nat → Option CScript) (wtxNew : CTransaction) (nIn : Nat) : Nat → Option CTransaction
  | 0 => some wtxNew
  | n+1 =>
    match SignSignature wtxNew nIn with
    | none => none
    | some scriptSig =>
      signInputs SignSignature {wtxNew with vin := wtxNew.vin.modify nIn fun txin => {txin with scriptSig := scriptSig}} (nIn+1) n

namespace CWallet
open Retry

/-- The end of a turn: the size and the fee. `nPayFee` goes through the constructor from
    an integer. -/
def checkFee (wallet : CWallet) (settings : FeeRules) (wtxNew : CTransaction) (nFeeRet : Fees) : Turn Fees Creation :=
  let nBytes := wtxNew.GetSerializeSize
  if nBytes ≥ MAX_STANDARD_TX_SIZE then .done (.fails "Transaction too large")
  else
    let nPayFee : Fees := Cash.ofAmount (Fees.toAmount (settings.nTransactionFee.mulAmount (Int64.ofNat (1+nBytes/1000))))
    let nMinFee : Fees := wtxNew.GetMinFee settings.rules 1 (wallet.allowsFree wtxNew) .GMF_SEND
    if nFeeRet.toAmount < max nPayFee.toAmount nMinFee.toAmount then .again (nFeeRet.assignAmount (max nPayFee.toAmount nMinFee.toAmount))
    else .done (.created wtxNew nFeeRet)

/-- One turn of the loop, for a fee. -/
def createTurn (wallet : CWallet) (settings : FeeRules) (call : PaymentCall) (nValue : Cash) (draw : Draw) (nFeeRet : Fees) :
    Turn Fees Creation :=
  let nTotalValue := nValue.addFees nFeeRet
  let vout : List CTxOut := call.vecSend.map fun s => ⟨s.2,s.1⟩
  if vout.any CTxOut.IsDust then .done (.fails "Transaction amount too small")
  else
    let selection := wallet.SelectCoins draw.chances nTotalValue ⟨false,∅,{}⟩ call.coinControl
    if selection.found = false then .done (.fails "Insufficient funds 1 ")
    else
      let coins := draw.setOrder selection.setCoinsRet
      let (nChange,nFeeRet) := moveToFee settings.rules.nMinTxFee ((selection.nValueRet.sub nValue).subFees nFeeRet) nFeeRet
      match addChange draw call.destChange vout nChange nFeeRet with
      | none => .done .asserts
      | some (vout,nFeeRet) =>
        let wtxNew := {call.wtxNew with
          vin := coins.map fun coin => ⟨coin,[],0xFFFFFFFF⟩
          vout := vout
          Attachments := if CTransaction.sizeofAttachments > MAX_TX_ATTACHMENTS_LEN then [] else call.Attachments}
        match signInputs draw.SignSignature wtxNew 0 coins.length with
        | none => .done (.fails "Signing transaction failed")
        | some wtxNew => wallet.checkFee settings wtxNew nFeeRet

/-- `CreateTransaction`; none if the fuel runs out. -/
def CreateTransaction (wallet : CWallet) (settings : FeeRules) (call : PaymentCall) (draws : Nat → Draw) (fuel : Nat) : Option Creation :=
  if call.vecSend.isEmpty then some (.fails "Transaction amounts must be positive")
  else
    match sumSend {} call.vecSend with
    | none => some (.fails "Transaction amounts must be positive")
    | some nValue => loop (wallet.createTurn settings call nValue) draws fuel settings.nTransactionFee

end CWallet
end Tetra
