import Mathlib
import Tetra.Transaction

/-!
Unspent outputs, the views that hold them, and what a transaction does to a
view: the checks on its inputs, and spending them.
-/
namespace Tetra
open Std

/-- The outputs of one transaction; spent ones are null, and dropped at the end. -/
structure CCoins where
  fCoinBase : Bool := false
  vout : List CTxOut := []
  nHeight : Nat := 0
  nVersion : Int := 0
deriving DecidableEq

structure CTxInUndo where
  txout : CTxOut
  fCoinBase : Bool := false
  nHeight : Nat := 0
  nVersion : Int := 0
deriving DecidableEq

/-- Undo data of one transaction, an entry for each input. -/
structure CTxUndo where
  vprevout : List CTxInUndo
deriving DecidableEq

/-- Undo data of one block, an entry for each transaction but the coinbase. -/
structure CBlockUndo where
  vtxundo : List CTxUndo
deriving DecidableEq

namespace CCoins

def ofTransaction (tx : CTransaction) (nHeightIn : Nat) : CCoins := ⟨tx.IsCoinBase,tx.vout,nHeightIn,tx.nVersion⟩
def Cleanup (coins : CCoins) : CCoins := {coins with vout := coins.vout.rdropWhile CTxOut.IsNull}

/-- `Spend(out, undo)`; only the last output of a transaction leaves its metadata
    in the undo entry. -/
def Spend (coins : CCoins) (out : COutPoint) : Option (CCoins × CTxInUndo) :=
  match coins.vout[out.n]? with
  | none => none
  | some txout =>
    if txout.IsNull then none
    else
      let spent := Cleanup {coins with vout := coins.vout.set out.n CTxOut.null}
      if spent.vout.length = 0 then some (spent,⟨txout,coins.fCoinBase,coins.nHeight,coins.nVersion⟩)
      else some (spent,{txout := txout})

def IsAvailable (coins : CCoins) (nPos : Nat) : Bool :=
  match coins.vout[nPos]? with
  | none => false
  | some out => !out.IsNull

def IsPruned (coins : CCoins) : Bool := coins.vout.all CTxOut.IsNull

end CCoins

/-- The reading half of a coins view; a block index is named by its hash. -/
structure CCoinsView where
  GetCoins : uint256 → Option CCoins
  GetBestBlock : Option uint256

/-- A view over another one. Read-through copies change no answer and are not kept. -/
structure CCoinsViewCache where
  base : CCoinsView
  cacheCoins : ExtTreeMap uint256 CCoins := ∅
  pindexTip : Option uint256 := none

namespace CCoinsViewCache

def GetCoins (view : CCoinsViewCache) (txid : uint256) : Option CCoins :=
  match view.cacheCoins[txid]? with
  | some coins => some coins
  | none => view.base.GetCoins txid

def SetCoins (view : CCoinsViewCache) (txid : uint256) (coins : CCoins) : CCoinsViewCache :=
  {view with cacheCoins := view.cacheCoins.insert txid coins}

def HaveCoins (view : CCoinsViewCache) (txid : uint256) : Bool := (view.GetCoins txid).isSome

def GetBestBlock (view : CCoinsViewCache) : Option uint256 :=
  match view.pindexTip with
  | some pindex => some pindex
  | none => view.base.GetBestBlock

def SetBestBlock (view : CCoinsViewCache) (pindex : Option uint256) : CCoinsViewCache :=
  {view with pindexTip := pindex}

def BatchWrite (view : CCoinsViewCache) (mapCoins : ExtTreeMap uint256 CCoins) (pindex : Option uint256) :
    CCoinsViewCache :=
  {view with cacheCoins := view.cacheCoins ∪ mapCoins, pindexTip := pindex}

/-- What a cache on top of this one reads. -/
def toView (view : CCoinsViewCache) : CCoinsView := ⟨view.GetCoins,view.GetBestBlock⟩

@[simp] theorem GetCoins_SetCoins (view : CCoinsViewCache) (txid other : uint256) (coins : CCoins) :
    (view.SetCoins txid coins).GetCoins other = if txid = other then some coins else view.GetCoins other := by
  simp only [GetCoins,SetCoins,ExtTreeMap.getElem?_insert]
  by_cases same : txid = other <;> simp [same]

@[simp] theorem GetCoins_SetBestBlock (view : CCoinsViewCache) (pindex : Option uint256) :
    (view.SetBestBlock pindex).GetCoins = view.GetCoins := rfl

@[simp] theorem GetBestBlock_SetCoins (view : CCoinsViewCache) (txid : uint256) (coins : CCoins) :
    (view.SetCoins txid coins).GetBestBlock = view.GetBestBlock := rfl

@[simp] theorem GetBestBlock_SetBestBlock (view : CCoinsViewCache) (pindex : uint256) :
    (view.SetBestBlock (some pindex)).GetBestBlock = some pindex := rfl

/-- An output that can be spent. -/
def output (view : CCoinsViewCache) (prevout : COutPoint) : Option CTxOut :=
  match view.GetCoins prevout.hash with
  | none => none
  | some coins => if coins.IsAvailable prevout.n then coins.vout[prevout.n]? else none

end CCoinsViewCache

structure CScriptCheck where
  scriptPubKey : CScript
  ptxTo : CTransaction
  nIn : Nat
  nFlags : ScriptFlags
deriving DecidableEq

/-- `CScriptCheck::operator()` -/
def CScriptCheck.run (env : Env) (check : CScriptCheck) : Bool :=
  match check.ptxTo.vin[check.nIn]? with
  | none => false
  | some txin => env.VerifyScript txin.scriptSig check.scriptPubKey check.ptxTo check.nIn check.nFlags

def COINBASE_MATURITY : Int := 0

namespace CTransaction

def GetOutputFor (input : CTxIn) (view : CCoinsViewCache) : Except Reject CTxOut :=
  match view.GetCoins input.prevout.hash with
  | none => .error (.asserts "it != cacheCoins.end()")
  | some coins =>
    if coins.IsAvailable input.prevout.n then
      match coins.vout[input.prevout.n]? with
      | some out => .ok out
      | none => .error (.asserts "coins.IsAvailable(input.prevout.n)")
    else .error (.asserts "coins.IsAvailable(input.prevout.n)")

/-- The loop of `GetValueIn`. -/
def sumIn (inputs : CCoinsViewCache) (nResult : Cash) : List CTxIn → Except Reject Cash
  | [] => .ok nResult
  | txin :: rest =>
    match GetOutputFor txin inputs with
    | .error e => .error e
    | .ok out => sumIn inputs (nResult.addAssign out.nValue) rest

def GetValueIn (tx : CTransaction) (inputs : CCoinsViewCache) : Except Reject Cash :=
  if tx.IsCoinBase then .ok (Cash.ofAmount 0) else sumIn inputs {} tx.vin

def HaveInputs (tx : CTransaction) (inputs : CCoinsViewCache) : Bool :=
  if tx.IsCoinBase then true
  else (tx.vin.all fun txin => inputs.HaveCoins txin.prevout.hash) &&
    tx.vin.all fun txin =>
      match inputs.GetCoins txin.prevout.hash with
      | none => false
      | some coins => coins.IsAvailable txin.prevout.n

/-- The first loop of `CheckInputs`; the outputs are there, since `HaveInputs` passed. -/
def sumCheckedIn (inputs : CCoinsViewCache) (nSpendHeight : Int) (nValueIn : Cash) : List CTxIn → Except Reject Cash
  | [] => .ok nValueIn
  | txin :: rest =>
    match inputs.GetCoins txin.prevout.hash with
    | none => .error (.asserts "it != cacheCoins.end()")
    | some coins =>
      if coins.fCoinBase ∧ nSpendHeight-coins.nHeight < COINBASE_MATURITY then
        .error (.Invalid "CheckInputs() : tried to spend coinbase at depth %d")
      else
        match coins.vout[txin.prevout.n]? with
        | none => .error (.asserts "coins.vout[prevout.n]")
        | some out =>
          let nValueIn := nValueIn.addAssign out.nValue
          if MoneyRange out.nValue = false ∨ MoneyRange nValueIn = false then
            .error (.DoS 100 false "CheckInputs() : txin values out of range")
          else sumCheckedIn inputs nSpendHeight nValueIn rest

/-- The checks of the second loop of `CheckInputs`, one for each input from index `i` on. -/
def scriptChecks (tx : CTransaction) (inputs : CCoinsViewCache) (flags : ScriptFlags) (i : Nat) : List CTxIn → List CScriptCheck
  | [] => []
  | txin :: rest =>
    match GetOutputFor txin inputs with
    | .error _ => scriptChecks tx inputs flags (i+1) rest
    | .ok out => ⟨out.scriptPubKey,tx,i,flags⟩ :: scriptChecks tx inputs flags (i+1) rest

/-- The checks run one after another. -/
def runScriptChecks (env : Env) : List CScriptCheck → Except Reject Unit
  | [] => .ok ()
  | check :: rest =>
    if check.run env then runScriptChecks env rest
    else if check.nFlags.STRICTENC && CScriptCheck.run env {check with nFlags := {check.nFlags with STRICTENC := false}} then
      .error (.Invalid "")
    else .error (.DoS 100 false "")

/-- `CheckInputs`; with `pvChecks` the script checks are handed back instead of run.
    `nSpendHeight` is one above the best block of `inputs`. -/
def CheckInputs (env : Env) (tx : CTransaction) (inputs : CCoinsViewCache) (nSpendHeight : Int)
    (fScriptChecks : Bool) (flags : ScriptFlags) (pvChecks : Bool) : Except Reject (List CScriptCheck) :=
  if tx.IsCoinBase then .ok []
  else if tx.HaveInputs inputs = false then .error (.Invalid "CheckInputs() : %s inputs unavailable")
  else
    match sumCheckedIn inputs nSpendHeight {} tx.vin with
    | .error e => .error e
    | .ok nValueIn =>
      match tx.GetValueOut with
      | .error e => .error e
      | .ok nValueOut =>
        if nValueIn.lt nValueOut then .error (.DoS 100 false "CheckInputs() : %s value in < value out")
        else
          let nTxFee := nValueIn.sub nValueOut
          if nTxFee.ltAmount 0 then .error (.DoS 100 false "CheckInputs() : %s nTxFee < 0")
          else if MoneyRange (({} : Cash).addAssign nTxFee) = false then
            .error (.DoS 100 false "CheckInputs() : nFees out of range")
          else if fScriptChecks = false then .ok []
          else if pvChecks then .ok (tx.scriptChecks inputs flags 0 tx.vin)
          else
            match runScriptChecks env (tx.scriptChecks inputs flags 0 tx.vin) with
            | .error e => .error e
            | .ok () => .ok []

/-- The spending loop of `UpdateCoins`. -/
def spendInputs (inputs : CCoinsViewCache) : List CTxIn → Except Reject (CCoinsViewCache × List CTxInUndo)
  | [] => .ok (inputs,[])
  | txin :: rest =>
    match inputs.GetCoins txin.prevout.hash with
    | none => .error (.asserts "it != cacheCoins.end()")
    | some coins =>
      match coins.Spend txin.prevout with
      | none => .error (.asserts "ret")
      | some (spent,undo) =>
        match spendInputs (inputs.SetCoins txin.prevout.hash spent) rest with
        | .error e => .error e
        | .ok (inputs,vprevout) => .ok (inputs,undo :: vprevout)

def UpdateCoins (tx : CTransaction) (inputs : CCoinsViewCache) (nHeight : Nat) (txhash : uint256) :
    Except Reject (CCoinsViewCache × CTxUndo) :=
  match if tx.IsCoinBase then .ok (inputs,[]) else spendInputs inputs tx.vin with
  | .error e => .error e
  | .ok (inputs,vprevout) => .ok (inputs.SetCoins txhash (.ofTransaction tx nHeight),⟨vprevout⟩)

end CTransaction
end Tetra
