import Mathlib
import Tetra.Primitives

/-!
Choosing coins of the wallet for a payment: the list of spendable outputs, the
randomised search for a subset that comes close to the target, and the choice
between one bigger coin and such a subset.
-/
namespace Tetra
open Std

def MIN_CONF_MINE : Int := 1
def MIN_CONF_THEIRS : Int := 1

/-- A wallet transaction, with what the wallet and the chain answer about it. -/
structure CWalletTx where
  vout : List CTxOut
  IsFinal : Bool := true
  IsConfirmed : Bool := true
  IsCoinBase : Bool := false
  GetBlocksToMaturity : Int := 0
  GetDepthInMainChain : Int
  IsFromMe : Bool := false
  vfSpent : List Bool := []
deriving DecidableEq

def CWalletTx.IsSpent (tx : CWalletTx) (nOut : Nat) : Bool := tx.vfSpent[nOut]?.getD false

/-- `COutput`: the pointer to the transaction is named by its key in `mapWallet`. -/
structure COutput where
  hash : uint256
  tx : CWalletTx
  i : Nat
  nDepth : Int
deriving DecidableEq

/-- The pair of a transaction pointer and an index. -/
def COutput.point (out : COutput) : COutPoint := ⟨out.hash,out.i⟩
/-- `tx->vout[i].nValue` -/
def COutput.nValue (out : COutput) : Cash := (out.tx.vout[out.i]?.getD CTxOut.null).nValue

structure CCoinControl where
  setSelected : List COutPoint := []

def CCoinControl.HasSelected (coinControl : CCoinControl) : Bool := decide (0 < coinControl.setSelected.length)
def CCoinControl.IsSelected (coinControl : CCoinControl) (hash : uint256) (n : Nat) : Bool :=
  coinControl.setSelected.contains ⟨hash,n⟩

structure CWallet where
  mapWallet : ExtTreeMap uint256 CWalletTx
  IsMine : CTxOut → Bool
  IsLockedCoin : uint256 → Nat → Bool
  nMinimumInputValue : Amount := 1
  bSpendZeroConfChange : Bool := true

namespace CWallet

/-- The outputs of one wallet transaction that can be spent. -/
def availableOutputs (wallet : CWallet) (coinControl : Option CCoinControl) (hash : uint256) (pcoin : CWalletTx) : List COutput :=
  (pcoin.vout.zipIdx.filter fun (out,i) =>
    !pcoin.IsSpent i && wallet.IsMine out && !wallet.IsLockedCoin hash i && out.nValue.geAmount wallet.nMinimumInputValue &&
      (match coinControl with
        | none => true
        | some coinControl => !coinControl.HasSelected || coinControl.IsSelected hash i)).map
    fun (_,i) => ⟨hash,pcoin,i,pcoin.GetDepthInMainChain⟩

def AvailableCoins (wallet : CWallet) (fOnlyConfirmed : Bool) (coinControl : Option CCoinControl) : List COutput :=
  wallet.mapWallet.toList.flatMap fun (hash,pcoin) =>
    if !pcoin.IsFinal then []
    else if fOnlyConfirmed && !pcoin.IsConfirmed then []
    else if pcoin.IsCoinBase && decide (pcoin.GetBlocksToMaturity > 0) then []
    else if pcoin.GetDepthInMainChain < 0 then []
    else wallet.availableOutputs coinControl hash pcoin

end CWallet

/-- A coin with its value, as `vValue` holds it. -/
abbrev Valued := Cash × COutPoint

/-- The variables of `ApproximateBestSubset`. -/
structure SubsetSearch where
  vfIncluded : List Bool
  nTotal : Cash := {}
  fReachedTarget : Bool := false
  vfBest : List Bool
  nBest : Cash

/-- The coin `i` of value `n` goes in; if that reaches the target, it is noted and the
    coin goes out again. -/
def tryCoin (nTargetValue : Cash) (s : SubsetSearch) (i : Nat) (n : Cash) : SubsetSearch :=
  let nTotal := s.nTotal.addAssign n
  let vfIncluded := s.vfIncluded.set i true
  if nTotal.ge nTargetValue then
    let better := nTotal.lt s.nBest
    {vfIncluded := vfIncluded.set i false,nTotal := nTotal.subAssign n,fReachedTarget := true,
     vfBest := if better then vfIncluded else s.vfBest,nBest := if better then nTotal else s.nBest}
  else {s with vfIncluded := vfIncluded,nTotal := nTotal}

/-- One pass: `rand` says which coins the first pass takes; the second takes those
    that are not in. -/
def searchPass (nTargetValue : Cash) (rand : Option (Nat → Bool)) (s : SubsetSearch) : List (Valued × Nat) → SubsetSearch
  | [] => s
  | (coin,i) :: rest =>
    let taken := match rand with
      | some bits => bits i
      | none => !(s.vfIncluded[i]?.getD false)
    searchPass nTargetValue rand (if taken then tryCoin nTargetValue s i coin.1 else s) rest

/-- One repetition, with the random bits of its first pass. -/
def searchRep (vValue : List Valued) (nTargetValue : Cash) (bits : Nat → Bool) (vfBest : List Bool) (nBest : Cash) : SubsetSearch :=
  let first := searchPass nTargetValue (some bits)
    {vfIncluded := List.replicate vValue.length false,vfBest := vfBest,nBest := nBest} vValue.zipIdx
  if first.fReachedTarget then first else searchPass nTargetValue none first vValue.zipIdx

/-- The repetitions that are left, until the target is met. -/
def searchReps (vValue : List Valued) (nTargetValue : Cash) (insecure_rand : Nat → Nat → Bool) (vfBest : List Bool) (nBest : Cash) :
    Nat → List Bool × Cash
  | 0 => (vfBest,nBest)
  | n+1 =>
    if nBest.ne nTargetValue then
      let s := searchRep vValue nTargetValue (insecure_rand n) vfBest nBest
      searchReps vValue nTargetValue insecure_rand s.vfBest s.nBest n
    else (vfBest,nBest)

def ApproximateBestSubset (vValue : List Valued) (nTotalLower nTargetValue : Cash) (insecure_rand : Nat → Nat → Bool)
    (iterations : Nat) : List Bool × Cash :=
  searchReps vValue nTargetValue insecure_rand (List.replicate vValue.length true) nTotalLower iterations

/-- The outcomes of one call that its inputs do not determine. `CompareValueOnly` is
    no strict weak ordering on values of several circuits, so `sort` may leave any order. -/
structure Chance where
  random_shuffle : List COutput → List COutput
  sort : List Valued → List Valued
  insecure_rand : Bool → Nat → Nat → Bool

structure Chance.Fair (chance : Chance) : Prop where
  random_shuffle : ∀ vCoins, (chance.random_shuffle vCoins).Perm vCoins
  sort : ∀ vValue, (chance.sort vValue).Perm vValue

/-- The result, `setCoinsRet` and `nValueRet`. -/
structure Selection where
  found : Bool
  setCoinsRet : Finset COutPoint := ∅
  nValueRet : Cash := {}

namespace Selection
/-- `setCoinsRet.insert(coin.second); nValueRet += coin.first` -/
def take (s : Selection) (coin : Valued) : Selection :=
  {s with setCoinsRet := insert coin.2 s.setCoinsRet,nValueRet := s.nValueRet.addAssign coin.1}
def takeAll (s : Selection) (coins : List Valued) : Selection := coins.foldl take s
end Selection

/-- The variables of the loop over the coins in `SelectCoinsMinConf`. -/
structure CoinSplit where
  coinLowestLarger : Cash × Option COutPoint := (Cash.assignAmount MAX_MONEY,none)
  vValue : List Valued := []
  nTotalLower : Cash := {}

/-- The loop over the shuffled coins; an exact coin ends it. -/
def splitCoins (nTargetValue : Cash) (nConfMine nConfTheirs : Int) (s : CoinSplit) : List COutput → CoinSplit × Option Valued
  | [] => (s,none)
  | output :: rest =>
    if output.nDepth < (if output.tx.IsFromMe then nConfMine else nConfTheirs) then
      splitCoins nTargetValue nConfMine nConfTheirs s rest
    else
      let n := output.nValue
      if n.eq nTargetValue then (s,some (n,output.point))
      else if n.lt (nTargetValue.addAmount CENT) then
        splitCoins nTargetValue nConfMine nConfTheirs
          {s with vValue := s.vValue ++ [(n,output.point)],nTotalLower := s.nTotalLower.addAssign n} rest
      else if !n.gtAmount s.coinLowestLarger.1.fixed then
        splitCoins nTargetValue nConfMine nConfTheirs {s with coinLowestLarger := (n,some output.point)} rest
      else splitCoins nTargetValue nConfMine nConfTheirs s rest

/-- The coins that `vfBest` marks. -/
def marked (vValue : List Valued) (vfBest : List Bool) : List Valued :=
  ((vValue.zip vfBest).filter Prod.snd).map Prod.fst

/-- The search and the choice after it. -/
def chooseSubset (nTargetValue : Cash) (insecure_rand : Bool → Nat → Nat → Bool) (vValue : List Valued) (nTotalLower : Cash)
    (coinLowestLarger : Cash × Option COutPoint) : Selection :=
  let best := ApproximateBestSubset vValue nTotalLower nTargetValue (insecure_rand false) 1000
  let best := if best.2.ne nTargetValue && nTotalLower.ge (nTargetValue.addAmount CENT) then
    ApproximateBestSubset vValue nTotalLower (nTargetValue.addAmount CENT) (insecure_rand true) 1000 else best
  match coinLowestLarger.2 with
  | some point =>
    if (best.2.ne nTargetValue && best.2.lt (nTargetValue.addAmount CENT)) || coinLowestLarger.1.le best.2 then
      (⟨true,∅,{}⟩ : Selection).take (coinLowestLarger.1,point)
    else (⟨true,∅,{}⟩ : Selection).takeAll (marked vValue best.1)
  | none => (⟨true,∅,{}⟩ : Selection).takeAll (marked vValue best.1)

namespace CWallet

def SelectCoinsMinConf (chance : Chance) (nTargetValue : Cash) (nConfMine nConfTheirs : Int) (vCoins : List COutput) : Selection :=
  match splitCoins nTargetValue nConfMine nConfTheirs {} (chance.random_shuffle vCoins) with
  | (_,some coin) => (⟨true,∅,{}⟩ : Selection).take coin
  | (s,none) =>
    if s.nTotalLower.eq nTargetValue then (⟨true,∅,{}⟩ : Selection).takeAll s.vValue
    else if s.nTotalLower.lt nTargetValue then
      match s.coinLowestLarger.2 with
      | none => ⟨false,∅,{}⟩
      | some point => (⟨true,∅,{}⟩ : Selection).take (s.coinLowestLarger.1,point)
    else chooseSubset nTargetValue chance.insecure_rand (chance.sort s.vValue) s.nTotalLower s.coinLowestLarger

/-- `SelectCoins`, with what `setCoinsRet` and `nValueRet` hold before; each of the
    three attempts has its own chance. -/
def SelectCoins (wallet : CWallet) (chances : Fin 3 → Chance) (nTargetValue : Cash) (before : Selection)
    (coinControl : Option CCoinControl) : Selection :=
  let vCoins := wallet.AvailableCoins true coinControl
  if (coinControl.any CCoinControl.HasSelected) then
    let all := before.takeAll (vCoins.map fun out => (out.nValue,out.point))
    {all with found := all.nValueRet.ge nTargetValue}
  else
    let first := SelectCoinsMinConf (chances 0) nTargetValue MIN_CONF_MINE MIN_CONF_THEIRS vCoins
    if first.found then first
    else
      let second := SelectCoinsMinConf (chances 1) nTargetValue MIN_CONF_MINE MIN_CONF_MINE vCoins
      if second.found then second
      else if wallet.bSpendZeroConfChange then SelectCoinsMinConf (chances 2) nTargetValue MIN_CONF_MINE MIN_CONF_MINE vCoins
      else second

end CWallet
end Tetra
