import Mathlib
import Tetra.Script
import Tetra.ScriptValues

/-!
`signrawtransaction`: the view of the outputs that the inputs spend, what the caller adds
to it, and the loop that signs one input after another.
-/
namespace Tetra
open Std

/-- An entry of the second argument. -/
structure PrevTx where
  txid : uint256
  vout : Int
  scriptPubKey : CScript
  redeemScript : Option CScript := none

def PrevTx.prevout (p : PrevTx) : COutPoint := ⟨p.txid,p.vout.toNat⟩

/-- The same transaction, up to the scripts of its inputs. -/
def CTransaction.bare (tx : CTransaction) : CTransaction := {tx with vin := tx.vin.map fun txin => {txin with scriptSig := []}}

/-- `mergedTx.vin[i].scriptSig = scriptSig` -/
def CTransaction.withSig (tx : CTransaction) (i : Nat) (scriptSig : CScript) : CTransaction :=
  {tx with vin := tx.vin.modify i fun txin => {txin with scriptSig := scriptSig}}

def SIGHASH_NONE : Nat := 2

/-- Keys and redeem scripts. -/
abbrev KeyStore (Keys : Type) := Keys × List CScript

/-- How inputs are signed, and how signatures are put together and checked. -/
structure Signing (Keys : Type) where
  /-- The script that an input has after `SignSignature`, signed or not. -/
  SignSignature : KeyStore Keys → CScript → CTransaction → Nat → Nat → CScript
  CombineSignatures : CScript → CTransaction → Nat → CScript → CScript → CScript
  /-- With `SCRIPT_VERIFY_P2SH | SCRIPT_VERIFY_STRICTENC`. -/
  VerifyScript : CScript → CScript → CTransaction → Nat → Bool
  /-- `CScript::ToString` -/
  ToString : CScript → String
  /-- The hash that is signed leaves out the scripts of the inputs. -/
  SignSignature_bare : ∀ keystore fromPubKey tx i nHashType, SignSignature keystore fromPubKey tx.bare i nHashType = SignSignature keystore fromPubKey tx i nHashType
  CombineSignatures_bare : ∀ scriptPubKey tx i scriptSig1 scriptSig2,
    CombineSignatures scriptPubKey tx.bare i scriptSig1 scriptSig2 = CombineSignatures scriptPubKey tx i scriptSig1 scriptSig2
  VerifyScript_bare : ∀ scriptSig scriptPubKey tx i, VerifyScript scriptSig scriptPubKey tx.bare i = VerifyScript scriptSig scriptPubKey tx i
  /-- More redeem scripts lose no signature. -/
  more_scripts : ∀ keys (scripts scripts' : List CScript), (∀ script ∈ scripts, script ∈ scripts') →
    ∀ scriptPubKey tx i nHashType (others : List CScript),
    VerifyScript (others.foldl (CombineSignatures scriptPubKey tx i) (SignSignature (keys,scripts) scriptPubKey tx i nHashType)) scriptPubKey tx i = true →
    VerifyScript (others.foldl (CombineSignatures scriptPubKey tx i) (SignSignature (keys,scripts') scriptPubKey tx i nHashType)) scriptPubKey tx i = true

/-! ### The view of the outputs -/

namespace CCoins

/-- The output at some place, when it is available. -/
def outputAt (coins : CCoins) (nPos : Nat) : Option CTxOut := if coins.IsAvailable nPos then coins.vout[nPos]? else none

/-- `coins.vout.resize(nOut+1)` where that is longer, and the output is written with a value
    of 0. -/
def supply (coins : CCoins) (nOut : Nat) (scriptPubKey : CScript) : CCoins :=
  let vout := if nOut ≥ coins.vout.length then coins.vout ++ List.replicate (nOut+1-coins.vout.length) CTxOut.null else coins.vout
  {coins with vout := vout.set nOut ⟨Cash.assignAmount 0,scriptPubKey⟩}

end CCoins

/-- `view.GetCoins(prevHash, coins)`, which keeps what it reads. -/
def fetchInput (chain : CCoinsView) (view : CCoinsViewCache) (txin : CTxIn) : CCoinsViewCache :=
  match chain.GetCoins txin.prevout.hash with
  | some coins => view.SetCoins txin.prevout.hash coins
  | none => view

/-- The outputs of the transactions that the inputs name, read from the chain and the
    pool; then the view is put on top of nothing. -/
def fetchCoins (chain : CCoinsView) (tx : CTransaction) : CCoinsViewCache :=
  tx.vin.foldl (fetchInput chain) {base := ⟨fun _ => none,none⟩}

section
variable {Keys : Type}

/-- One entry, added to the view and to the redeem scripts. `nOut+1` has no room above the
    greatest `int`. -/
def addPrevTx (signing : Signing Keys) (fGivenKeys : Bool) (state : CCoinsViewCache × List CScript) (p : PrevTx) :
    Except Reject (CCoinsViewCache × List CScript) :=
  if p.vout < 0 then .error (.throws "vout must be positive") else
  let nOut := p.vout.toNat
  let coins := (state.1.GetCoins p.txid).getD {}
  match (coins.outputAt nOut).filter fun out => out.scriptPubKey != p.scriptPubKey with
  | some out => .error (.throws ("Previous output scriptPubKey mismatch:\n" ++ signing.ToString out.scriptPubKey ++ "\nvs:\n" ++
      signing.ToString p.scriptPubKey))
  | none =>
    if p.vout ≥ 2^31-1 then .error (.throws "vector::_M_default_append") else
    let view := state.1.SetCoins p.txid (coins.supply nOut p.scriptPubKey)
    if fGivenKeys && CScript.IsPayToScriptHash p.scriptPubKey then
      match p.redeemScript with
      | none => .error (.throws "Missing redeemScript")
      | some redeemScript => .ok (view,redeemScript :: state.2)
    else .ok (view,state.2)

def addPrevTxs (signing : Signing Keys) (fGivenKeys : Bool) (state : CCoinsViewCache × List CScript) (prevTxs : List PrevTx) :
    Except Reject (CCoinsViewCache × List CScript) := prevTxs.foldlM (addPrevTx signing fGivenKeys) state

/-! ### The signing loop -/

/-- A signature of the key store's, with those of the other variants merged in. No result
    where a variant does not have the input. -/
def signInput (signing : Signing Keys) (keystore : KeyStore Keys) (txVariants : List CTransaction) (nHashType : Nat)
    (mergedTx : CTransaction) (i : Nat) (prevPubKey : CScript) : Option CScript :=
  let fHashSingle := nHashType%128 == SIGHASH_SINGLE
  let scriptSig := if !fHashSingle || decide (i < mergedTx.vout.length) then
    signing.SignSignature keystore prevPubKey (mergedTx.withSig i []) i nHashType else []
  txVariants.foldlM (fun scriptSig txv => txv.vin[i]?.map fun txin =>
    signing.CombineSignatures prevPubKey (mergedTx.withSig i scriptSig) i scriptSig txin.scriptSig) scriptSig

/-- A turn of the loop, with `fComplete`. -/
def signTurn (signing : Signing Keys) (view : CCoinsViewCache) (keystore : KeyStore Keys) (txVariants : List CTransaction) (nHashType : Nat)
    (state : CTransaction × Bool) (i : Nat) : Option (CTransaction × Bool) :=
  match state.1.vin[i]?.bind fun txin => view.output txin.prevout with
  | none => some (state.1,false)
  | some out => (signInput signing keystore txVariants nHashType state.1 i out.scriptPubKey).map fun scriptSig =>
    let mergedTx := state.1.withSig i scriptSig
    (mergedTx,state.2 && signing.VerifyScript scriptSig out.scriptPubKey mergedTx i)

def signLoop (signing : Signing Keys) (view : CCoinsViewCache) (keystore : KeyStore Keys) (txVariants : List CTransaction) (nHashType : Nat)
    (mergedTx : CTransaction) : Option (CTransaction × Bool) :=
  (List.range mergedTx.vin.length).foldlM (signTurn signing view keystore txVariants nHashType) (mergedTx,true)

/-- What the call finds: the chain with the pool, and the wallet. -/
structure SignNode (Keys : Type) where
  chain : CCoinsView
  wallet : KeyStore Keys
  IsLocked : Bool := false

def mapSigHashValues : List (String × Nat) :=
  [("ALL",SIGHASH_ALL),("ALL|ANYONECANPAY",SIGHASH_ALL+128),("NONE",SIGHASH_NONE),("NONE|ANYONECANPAY",SIGHASH_NONE+128),
    ("SINGLE",SIGHASH_SINGLE),("SINGLE|ANYONECANPAY",SIGHASH_SINGLE+128)]

/-- The arguments, read from their texts: the first transaction and its other variants, and
    the keys, if any are given. -/
structure SignRequest (Keys : Type) where
  rawtx : CTransaction
  others : List CTransaction := []
  keys : Option Keys := none
  sighash : String := "ALL"

/-- The view and the key store that the loop works with. -/
def prepareSigning (signing : Signing Keys) (node : SignNode Keys) (request : SignRequest Keys) (prevTxs : List PrevTx) :
    Except Reject (CCoinsViewCache × KeyStore Keys) :=
  (addPrevTxs signing request.keys.isSome (fetchCoins node.chain request.rawtx,[]) prevTxs).map fun state =>
    (state.1,match request.keys with | some keys => (keys,state.2) | none => node.wallet)

/-- No result where the loop reads past the inputs of a variant. -/
def signrawtransaction (signing : Signing Keys) (node : SignNode Keys) (request : SignRequest Keys) (prevTxs : List PrevTx) :
    Except Reject (Option (CTransaction × Bool)) :=
  if request.keys.isNone && node.IsLocked then .error (.throws "Error: Please enter the wallet passphrase with walletpassphrase first.") else
  match prepareSigning signing node request prevTxs with
  | .error e => .error e
  | .ok (view,keystore) =>
    match mapSigHashValues.lookup request.sighash with
    | none => .error (.throws "Invalid sighash param")
    | some nHashType => .ok (signLoop signing view keystore (request.rawtx :: request.others) nHashType request.rawtx)

end
end Tetra
